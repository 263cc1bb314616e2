import RePrime.Session.Invariant

/-!
# RePrime.Session.Tree

The tree of a session, as the daemon builds it and as a client does from the flat nodes it is sent.

* `getTree`: the nodes below the roots are sorted, from a stack. `fuel` bounds the loop.
* `buildSessionTreeFromFlatNodes`: all nodes are sorted.
* `Placed`: where the second loop of both puts a node.
* `trees_agree`: the loop of the daemon ends, and the two trees are the same.
* `showsAll_of_reachable`: in a session every entry is drawn, in one place.
-/

namespace RePrime
namespace Session

open List Option
open OrderedMap ParentChain

structure SessionTreeFlatNode where
  entry : SessionEntry
  label : Option String
  labelTimestamp : Option String

def SessionTreeFlatNode.id (n : SessionTreeFlatNode) : String := n.entry.id

/-- A node is referred to by its flat part, which does not change. -/
structure SessionTreeNode where
  flat : SessionTreeFlatNode
  children : List SessionTreeFlatNode

abbrev NodeMap : Type := OrderedMap String SessionTreeNode

structure SessionTree where
  nodes : NodeMap
  roots : List SessionTreeFlatNode

def SessionManager.getFlatTree (sm : SessionManager) : List SessionTreeFlatNode :=
  sm.entries.map fun entry => ⟨entry, sm.labelsById.get? entry.id, sm.labelTimestampsById.get? entry.id⟩

/-! ## The two builders -/

/-- The first loop. -/
def indexNodes (flatNodes : List SessionTreeFlatNode) : NodeMap := .ofList (flatNodes.map fun n => (n.id, ⟨n, []⟩))

def childrenOf (nodes : NodeMap) (id : String) : List SessionTreeFlatNode :=
  ((nodes.get? id).map SessionTreeNode.children).getD []

namespace SessionTree

/-- `nodeMap.get(entry.id)!`. -/
def node (t : SessionTree) (flatNode : SessionTreeFlatNode) : SessionTreeFlatNode :=
  ((t.nodes.get? flatNode.id).map SessionTreeNode.flat).getD flatNode

def pushRoot (t : SessionTree) (node : SessionTreeFlatNode) : SessionTree := { t with roots := t.roots ++ [node] }

def pushChild (t : SessionTree) (parentId : String) (parent : SessionTreeNode) (node : SessionTreeFlatNode) :
    SessionTree :=
  { t with nodes := t.nodes.set parentId { parent with children := parent.children ++ [node] } }

/-- The second loop of `getTree`. -/
def place (t : SessionTree) (flatNode : SessionTreeFlatNode) : SessionTree :=
  match flatNode.entry.parentId with
  | none => t.pushRoot (t.node flatNode)
  | some parentId =>
    if parentId = flatNode.id then t.pushRoot (t.node flatNode)
    else
      match t.nodes.get? parentId with
      | some parent => t.pushChild parentId parent (t.node flatNode)
      | none => t.pushRoot (t.node flatNode)

/-- The second loop of `buildSessionTreeFromFlatNodes`. -/
def placeFlat (t : SessionTree) (flatNode : SessionTreeFlatNode) : SessionTree :=
  let parent := match flatNode.entry.parentId with
    | none => none
    | some parentId =>
      if parentId = flatNode.id then none else (t.nodes.get? parentId).map fun parent => (parentId, parent)
  match parent with
  | some (parentId, parent) => t.pushChild parentId parent (t.node flatNode)
  | none => t.pushRoot (t.node flatNode)

end SessionTree

section Sorting

variable (getTime : String → Option Int)

/-- The comparison is not positive. `none` is `NaN`, which counts as 0. -/
def notAfter : Option Int → Option Int → Bool
  | some a, some b => decide (a - b ≤ 0)
  | _, _ => true

def sortChildren (children : List SessionTreeFlatNode) : List SessionTreeFlatNode :=
  children.mergeSort fun a b => notAfter (getTime a.entry.timestamp) (getTime b.entry.timestamp)

def SessionTreeNode.sorted (node : SessionTreeNode) : SessionTreeNode :=
  { node with children := sortChildren getTime node.children }

def sortNode (nodes : NodeMap) (id : String) : NodeMap :=
  match nodes.get? id with
  | some node => nodes.set id (node.sorted getTime)
  | none => nodes

/-- The head of the stack is the node that is popped next. -/
def sortFrom : Nat → NodeMap → List SessionTreeFlatNode → Option NodeMap
  | _, nodes, [] => some nodes
  | 0, _, _ :: _ => none
  | fuel + 1, nodes, node :: stack =>
    let nodes := sortNode getTime nodes node.id
    sortFrom fuel nodes ((childrenOf nodes node.id).reverse ++ stack)

def SessionManager.getTree (fuel : Nat) (sm : SessionManager) : Option SessionTree :=
  let t := sm.getFlatTree.foldl SessionTree.place ⟨indexNodes sm.getFlatTree, []⟩
  (sortFrom getTime fuel t.nodes t.roots.reverse).map fun nodes => ⟨nodes, t.roots⟩

def buildSessionTreeFromFlatNodes (flatNodes : List SessionTreeFlatNode) : SessionTree :=
  let t := flatNodes.foldl SessionTree.placeFlat ⟨indexNodes flatNodes, []⟩
  { t with nodes := t.nodes.keys.foldl (sortNode getTime) t.nodes }

end Sorting

/-- What is seen from a node down to a depth. -/
inductive View where
  | cut
  | node (flat : SessionTreeFlatNode) (children : List View)

def view (nodes : NodeMap) : Nat → SessionTreeFlatNode → View
  | 0, _ => .cut
  | depth + 1, flat => .node flat ((childrenOf nodes flat.id).map (view nodes depth))

/-- The same roots, and at every depth the same below them. -/
def SameTree (t t' : SessionTree) : Prop :=
  t.roots = t'.roots ∧ ∀ depth, t.roots.map (view t.nodes depth) = t'.roots.map (view t'.nodes depth)

/-! ## Where the nodes are put -/

section Placed

variable {flat done l : List SessionTreeFlatNode} {t : SessionTree} {n : SessionTreeFlatNode}

theorem placeFlat_eq (t : SessionTree) (n : SessionTreeFlatNode) : t.placeFlat n = t.place n := by
  rw [SessionTree.placeFlat, SessionTree.place]
  cases n.entry.parentId with
  | none => rfl
  | some parentId =>
    by_cases hself : parentId = n.id
    · simp only [if_pos hself]
    · simp only [if_neg hself]
      cases t.nodes.get? parentId <;> rfl

/-- The node it becomes a child of, if it is not a root. -/
def owner (flat : List SessionTreeFlatNode) (n : SessionTreeFlatNode) : Option String :=
  n.entry.parentId.filter fun p => decide (p ≠ n.id ∧ p ∈ flat.map SessionTreeFlatNode.id)

def ownedBy (flat : List SessionTreeFlatNode) (o : Option String) (l : List SessionTreeFlatNode) :
    List SessionTreeFlatNode := l.filter fun n => decide (owner flat n = o)

theorem mem_ownedBy {o : Option String} :
    n ∈ ownedBy flat o l ↔ n ∈ l ∧ owner flat n = o := by
  rw [ownedBy, mem_filter, decide_eq_true_iff]

theorem ownedBy_concat (o : Option String) (l : List SessionTreeFlatNode) (n : SessionTreeFlatNode) :
    ownedBy flat o (l ++ [n]) = ownedBy flat o l ++ if owner flat n = o then [n] else [] := by
  rw [ownedBy, filter_append, filter_singleton]
  by_cases h : owner flat n = o <;> simp [ownedBy, h]

/-- The nodes of `done` are placed. -/
structure Placed (flat done : List SessionTreeFlatNode) (t : SessionTree) : Prop where
  found : ∀ n ∈ flat, t.nodes.get? n.id = some ⟨n, ownedBy flat (some n.id) done⟩
  missing : ∀ id ∉ flat.map SessionTreeFlatNode.id, t.nodes.get? id = none
  roots : t.roots = ownedBy flat none done

theorem placed_index (hn : (flat.map SessionTreeFlatNode.id).Nodup) : Placed flat [] ⟨indexNodes flat, []⟩ where
  found := by
    intro n hmem
    refine get?_ofList_of_mem (mem_map.2 ⟨n, hmem, rfl⟩) ?_
    intro e he hid
    obtain ⟨m, hm, rfl⟩ := mem_map.1 he
    rw [inj_on_of_nodup_map hn hm hmem hid]
    rfl
  missing := by
    intro id hid
    refine get?_ofList_eq_none.2 fun e he heq => hid ?_
    obtain ⟨m, hm, rfl⟩ := mem_map.1 he
    exact heq ▸ mem_map_of_mem hm
  roots := rfl

theorem Placed.pushRoot (h : Placed flat done t) (howner : owner flat n = none) :
    Placed flat (done ++ [n]) (t.pushRoot n) where
  found := by
    intro k hk
    rw [ownedBy_concat, if_neg (by rw [howner]; exact nofun), append_nil]
    exact h.found k hk
  missing := h.missing
  roots := by
    rw [ownedBy_concat, if_pos howner, ← h.roots]
    rfl

variable (hn : (flat.map SessionTreeFlatNode.id).Nodup)

include hn

theorem Placed.place (h : Placed flat done t) (hmem : n ∈ flat) : Placed flat (done ++ [n]) (t.place n) := by
  have hnode : t.node n = n := by
    rw [SessionTree.node, h.found n hmem]
    rfl
  rw [SessionTree.place, hnode]
  cases hp : n.entry.parentId with
  | none => exact h.pushRoot (by rw [owner, hp]; rfl)
  | some p =>
    dsimp only
    split
    · rename_i hself
      exact h.pushRoot (by simp [owner, hp, hself])
    rename_i hself
    by_cases hin : p ∈ flat.map SessionTreeFlatNode.id
    · have howner : owner flat n = some p := by
        rw [owner, hp, Option.filter_some, if_pos (decide_eq_true ⟨hself, hin⟩)]
      obtain ⟨m, hm, rfl⟩ := mem_map.1 hin
      rw [h.found m hm]
      refine ⟨?_, ?_, ?_⟩
      · intro k hk
        show (t.nodes.set m.id _).get? k.id = _
        rw [get?_set, ownedBy_concat]
        by_cases hkm : k.id = m.id
        · rw [if_pos hkm, if_pos (by rw [howner, hkm]), inj_on_of_nodup_map hn hk hm hkm]
        · rw [if_neg hkm, if_neg (by rw [howner]; exact fun heq => hkm (some.inj heq).symm), append_nil]
          exact h.found k hk
      · intro id hid
        show (t.nodes.set m.id _).get? id = _
        rw [get?_set, if_neg (by rintro rfl; exact hid hin)]
        exact h.missing id hid
      · rw [ownedBy_concat, if_neg (by simp [howner]), append_nil]
        exact h.roots
    · rw [h.missing p hin]
      exact h.pushRoot (by rw [owner, hp, Option.filter_some, if_neg (by simp [hin])])

theorem placed_foldl : Placed flat flat (flat.foldl SessionTree.place ⟨indexNodes flat, []⟩) := by
  have hall : ∀ rest done t, flat = done ++ rest → Placed flat done t →
      Placed flat flat (rest.foldl SessionTree.place t) := by
    intro rest
    induction rest with
    | nil =>
      rintro done t hflat h
      rw [append_nil] at hflat
      rw [← hflat] at h
      exact h
    | cons n rest ih =>
      intro done t hflat h
      refine ih (done ++ [n]) _ (by rw [hflat, append_assoc]; rfl) (h.place hn ?_)
      rw [hflat]
      exact mem_append_right _ mem_cons_self
  exact hall flat [] _ rfl (placed_index hn)

end Placed

/-! ## Sorting -/

section Sorted

variable {getTime : String → Option Int} {flat popped stack l : List SessionTreeFlatNode} {n : SessionTreeFlatNode}
  {nodes nodes' : NodeMap} {t : SessionTree} {fuel : Nat}

theorem get?_sortNode (nodes : NodeMap) (id k : String) : (sortNode getTime nodes id).get? k =
    if k = id then (nodes.get? id).map (SessionTreeNode.sorted getTime) else nodes.get? k := by
  rw [sortNode]
  cases h : nodes.get? id with
  | none =>
    by_cases hk : k = id
    · rw [if_pos hk, hk, h]
      rfl
    · rw [if_neg hk]
  | some node => exact get?_set nodes id k _

theorem get?_foldl_sortNode (ids : List String) (hids : ids.Nodup) (nodes : NodeMap) (k : String) :
    (ids.foldl (sortNode getTime) nodes).get? k =
      if k ∈ ids then (nodes.get? k).map (SessionTreeNode.sorted getTime) else nodes.get? k := by
  induction ids generalizing nodes with
  | nil => rfl
  | cons id ids ih =>
    rw [nodup_cons] at hids
    rw [foldl_cons, ih hids.2, get?_sortNode]
    by_cases hk : k = id
    · subst hk
      simp [hids.1]
    · simp [hk]

/-- The children of a node before they are sorted. -/
def kids (flat : List SessionTreeFlatNode) (n : SessionTreeFlatNode) : List SessionTreeFlatNode :=
  ownedBy flat (some n.id) flat

/-- The nodes of `popped` are sorted. They and those of the stack are the roots and the children of `popped`. -/
structure Walk (getTime : String → Option Int) (flat popped stack : List SessionTreeFlatNode) (nodes : NodeMap) :
    Prop where
  nodup : (popped ++ stack).Nodup
  reached : ∀ n, n ∈ popped ++ stack ↔
    n ∈ flat ∧ (owner flat n = none ∨ ∃ p ∈ popped, owner flat n = some p.id)
  sorted : ∀ p ∈ popped, nodes.get? p.id = some (SessionTreeNode.sorted getTime ⟨p, kids flat p⟩)
  unsorted : ∀ n ∈ flat, n ∉ popped → nodes.get? n.id = some ⟨n, kids flat n⟩

theorem mem_sortChildren : n ∈ sortChildren getTime l ↔ n ∈ l := (mergeSort_perm l _).mem_iff

theorem Walk.pop (hn : (flat.map SessionTreeFlatNode.id).Nodup) (h : Walk getTime flat popped (n :: stack) nodes) :
    Walk getTime flat (n :: popped)
      ((childrenOf (sortNode getTime nodes n.id) n.id).reverse ++ stack) (sortNode getTime nodes n.id) := by
  have hmem : ∀ k ∈ popped ++ n :: stack, k ∈ flat := fun k hk => ((h.reached k).1 hk).1
  have hnflat : n ∈ flat := hmem n (mem_append_right _ mem_cons_self)
  have hnot : n ∉ popped := fun hp => (nodup_append.1 h.nodup).2.2 n hp n mem_cons_self rfl
  have hnew : (sortNode getTime nodes n.id).get? n.id = some (SessionTreeNode.sorted getTime ⟨n, kids flat n⟩) := by
    rw [get?_sortNode, if_pos rfl, h.unsorted n hnflat hnot]
    rfl
  have hchildren : childrenOf (sortNode getTime nodes n.id) n.id = sortChildren getTime (kids flat n) := by
    rw [childrenOf, hnew]
    rfl
  have hother : ∀ k ∈ flat, k ≠ n → (sortNode getTime nodes n.id).get? k.id = nodes.get? k.id := by
    intro k hk hkn
    rw [get?_sortNode, if_neg fun hid => hkn (inj_on_of_nodup_map hn hk hnflat hid)]
  have hkids : ∀ k, k ∈ (sortChildren getTime (kids flat n)).reverse ↔ k ∈ flat ∧ owner flat k = some n.id := by
    intro k
    rw [mem_reverse, mem_sortChildren, kids, mem_ownedBy]
  have hperm : n :: popped ++ ((sortChildren getTime (kids flat n)).reverse ++ stack) ~
      (sortChildren getTime (kids flat n)).reverse ++ (popped ++ n :: stack) := by
    refine (Perm.cons n (perm_append_comm_assoc _ _ _)).trans (perm_middle.symm.trans ?_)
    exact perm_middle.symm.append_left _
  rw [hchildren]
  refine ⟨hperm.nodup_iff.2 (nodup_append.2 ⟨?_, h.nodup, ?_⟩), ?_, ?_, ?_⟩
  · rw [nodup_reverse, sortChildren, (mergeSort_perm _ _).nodup_iff]
    exact hn.of_map.filter _
  · -- A child that was reached before was so from another owner.
    rintro k hk _ hk' rfl
    obtain ⟨-, hnone | ⟨p, hp, hid⟩⟩ := (h.reached k).1 hk'
    · rw [((hkids k).1 hk).2] at hnone
      cases hnone
    · rw [((hkids k).1 hk).2, some.injEq] at hid
      exact hnot (inj_on_of_nodup_map hn hnflat (hmem p (mem_append_left _ hp)) hid ▸ hp)
  · intro k
    rw [hperm.mem_iff, mem_append, hkids, h.reached, ← and_or_left, exists_mem_cons_iff, or_left_comm]
  · intro p hp
    obtain rfl | hp := mem_cons.1 hp
    · exact hnew
    · have hne : p ≠ n := fun heq => hnot (heq ▸ hp)
      rw [hother p (hmem p (mem_append_left _ hp)) hne]
      exact h.sorted p hp
  · intro k hk hnot'
    rw [mem_cons, not_or] at hnot'
    rw [hother k hk hnot'.1]
    exact h.unsorted k hk hnot'.2

/-- Every node is popped at most once. -/
theorem sortFrom_spec (hn : (flat.map SessionTreeFlatNode.id).Nodup) (fuel : Nat)
    (h : Walk getTime flat popped stack nodes) (hfuel : flat.length ≤ popped.length + fuel) :
    ∃ nodes' popped', sortFrom getTime fuel nodes stack = some nodes' ∧ Walk getTime flat popped' [] nodes' := by
  induction fuel generalizing popped stack nodes with
  | zero =>
    cases stack with
    | nil => exact ⟨nodes, popped, rfl, h⟩
    | cons n stack =>
      have hle := (h.nodup.subperm fun k hk => ((h.reached k).1 hk).1).length_le
      rw [length_append, length_cons] at hle
      omega
  | succ fuel ih =>
    cases stack with
    | nil => exact ⟨nodes, popped, rfl, h⟩
    | cons n stack => exact ih (h.pop hn) (by rw [length_cons]; omega)

/-- Both trees show the same below a node that was popped. -/
theorem Walk.view_eq (h : Walk getTime flat popped [] nodes)
    (h' : ∀ n ∈ flat, nodes'.get? n.id = some (SessionTreeNode.sorted getTime ⟨n, kids flat n⟩)) (depth : Nat) :
    ∀ n ∈ popped, view nodes depth n = view nodes' depth n := by
  induction depth with
  | zero => exact fun _ _ => rfl
  | succ depth ih =>
    intro n hnp
    rw [← append_nil popped] at hnp
    have hflat := ((h.reached n).1 hnp).1
    rw [append_nil] at hnp
    rw [view, view, childrenOf, childrenOf, h.sorted n hnp, h' n hflat]
    refine congrArg (View.node n) (map_congr_left fun c hc => ih c ?_)
    obtain ⟨hc, howner⟩ := mem_ownedBy.1 (mem_sortChildren.1 hc)
    have hreached := (h.reached c).2 ⟨hc, .inr ⟨n, hnp, howner⟩⟩
    rw [append_nil] at hreached
    exact hreached

theorem Placed.walk (hn : (flat.map SessionTreeFlatNode.id).Nodup) (h : Placed flat flat t) :
    Walk getTime flat [] t.roots.reverse t.nodes := by
  refine ⟨?_, ?_, fun p hp => absurd hp not_mem_nil, fun n hmem _ => h.found n hmem⟩
  · rw [nil_append, nodup_reverse, h.roots]
    exact hn.of_map.filter _
  · intro n
    rw [nil_append, mem_reverse, h.roots, mem_ownedBy]
    simp

theorem Placed.same (hn : (flat.map SessionTreeFlatNode.id).Nodup) (h : Placed flat flat t)
    (hfuel : flat.length ≤ fuel) :
    ∃ t', (sortFrom getTime fuel t.nodes t.roots.reverse).map (fun nodes => ⟨nodes, t.roots⟩) = some t' ∧
      SameTree t' { t with nodes := t.nodes.keys.foldl (sortNode getTime) t.nodes } := by
  obtain ⟨nodes, popped, hsort, hend⟩ := sortFrom_spec hn fuel (h.walk hn)
    (by rw [length_nil, Nat.zero_add]; exact hfuel)
  refine ⟨⟨nodes, t.roots⟩, by rw [hsort]; rfl, rfl, fun depth => map_congr_left fun n hroot => ?_⟩
  refine hend.view_eq ?_ depth n ?_
  · intro k hk
    have hfound := h.found k hk
    show (t.nodes.keys.foldl (sortNode getTime) t.nodes).get? k.id = _
    rw [get?_foldl_sortNode t.nodes.keys t.nodes.nodup, hfound, if_pos]
    · rfl
    · by_contra hkeys
      rw [get?_eq_none.2 hkeys] at hfound
      cases hfound
  · have hroot' : n ∈ t.roots := hroot
    rw [h.roots] at hroot'
    obtain ⟨hflat, howner⟩ := mem_ownedBy.1 hroot'
    have hreached := (hend.reached n).2 ⟨hflat, .inl howner⟩
    rw [append_nil] at hreached
    exact hreached

end Sorted

theorem nodup_getFlatTree {sm : SessionManager} (h : (sm.entries.map SessionEntry.id).Nodup) :
    (sm.getFlatTree.map SessionTreeFlatNode.id).Nodup := by
  rw [SessionManager.getFlatTree, List.map_map]
  exact h

/-- The client builds the tree of the daemon. -/
def TreesAgree (sm : SessionManager) : Prop :=
  ∀ getTime fuel, sm.entries.length ≤ fuel → ∃ t, sm.getTree getTime fuel = some t ∧
    SameTree t (buildSessionTreeFromFlatNodes getTime sm.getFlatTree)

/-- For entries with different ids, whatever their parents are, the loop of `getTree` ends within as many steps as there
are entries, and the two trees agree. The entries of a session have different ids. -/
theorem trees_agree : (∀ sm : SessionManager, (sm.entries.map SessionEntry.id).Nodup → TreesAgree sm) ∧
    ∀ w, Reachable w → TreesAgree w.sm := by
  have hall : ∀ sm : SessionManager, (sm.entries.map SessionEntry.id).Nodup → TreesAgree sm := by
    intro sm hids getTime fuel hfuel
    have hn := nodup_getFlatTree hids
    have hplaced := placed_foldl hn
    have hsame : SessionTree.placeFlat = SessionTree.place := funext fun t => funext (placeFlat_eq t)
    rw [SessionManager.getTree, buildSessionTreeFromFlatNodes, hsame]
    have hlength : sm.getFlatTree.length ≤ fuel := by
      rw [SessionManager.getFlatTree, length_map]
      exact hfuel
    revert hn hplaced hlength
    generalize sm.getFlatTree = flat
    intro hn hplaced hlength
    exact hplaced.same hn hlength
  exact ⟨hall, fun w hw => hall w.sm hw.wellFormed.nodup⟩

/-! ## Nothing is lost -/

/-- What is drawn of a tree. -/
inductive SessionTree.Shown (t : SessionTree) : SessionTreeFlatNode → Prop where
  | root {n : SessionTreeFlatNode} (h : n ∈ t.roots) : t.Shown n
  | child {p n : SessionTreeFlatNode} (hp : t.Shown p) (h : n ∈ childrenOf t.nodes p.id) : t.Shown n

section Complete

variable {flat : List SessionTreeFlatNode} {t : SessionTree} {es : List SessionEntry}

/-- Where parents are older entries, all entries are drawn, from the oldest on. -/
theorem shown_of_linked (hroots : t.roots = ownedBy flat none flat)
    (hkids : ∀ p ∈ flat, (childrenOf t.nodes p.id).Perm (kids flat p)) (hids : ∀ n ∈ flat, n.id ≠ "")
    (hes : ∀ e ∈ es, ∃ n ∈ flat, n.entry = e) (hlinked : Linked SessionEntry.id SessionEntry.parent es) :
    ∀ n ∈ flat, n.entry ∈ es → t.Shown n := by
  induction es with
  | nil => exact fun n _ hn => absurd hn not_mem_nil
  | cons e es ih =>
    have hold := ih (fun k hk => hes k (mem_cons_of_mem _ hk)) hlinked.2
    intro n hn he
    obtain rfl | he := mem_cons.1 he
    · cases howner : owner flat n with
      | none => exact .root (hroots ▸ mem_ownedBy.2 ⟨hn, howner⟩)
      | some p =>
        obtain ⟨hp, hin⟩ := Option.filter_eq_some_iff.1 howner
        obtain ⟨m, hm, rfl⟩ := mem_map.1 (of_decide_eq_true hin).2
        have hparent : n.entry.parent = some m.id := by
          simp only [SessionEntry.parent, hp]
          exact if_neg (hids m hm)
        obtain ⟨x, hx, hxm⟩ := hlinked.1 m.id hparent
        obtain ⟨y, hy, rfl⟩ := hes x (mem_cons_of_mem _ hx)
        exact .child (hold y hy hx) ((hkids y hy).mem_iff.2 (mem_ownedBy.2 ⟨hn, howner.trans (congrArg some hxm.symm)⟩))
    · exact hold n hn he

theorem perm_ownedBy (hn : (flat.map SessionTreeFlatNode.id).Nodup) :
    (ownedBy flat none flat ++ flat.flatMap (kids flat)).Perm flat := by
  refine (perm_ext_iff_of_nodup (nodup_append.2 ⟨hn.of_map.filter _, nodup_flatMap.2 ⟨?_, ?_⟩, ?_⟩) hn.of_map).2 ?_
  · exact fun p _ => hn.of_map.filter _
  · refine (pairwise_map.1 hn).imp fun {p q} hne n hp hq => hne ?_
    exact some.inj ((mem_ownedBy.1 hp).2.symm.trans (mem_ownedBy.1 hq).2)
  · rintro n hroot _ hkid rfl
    obtain ⟨p, -, hp⟩ := mem_flatMap.1 hkid
    exact nomatch (mem_ownedBy.1 hroot).2.symm.trans (mem_ownedBy.1 hp).2
  · intro n
    rw [mem_append, mem_flatMap]
    refine ⟨fun h => h.elim (fun hroot => (mem_ownedBy.1 hroot).1) fun ⟨p, _, hp⟩ => (mem_ownedBy.1 hp).1, fun h => ?_⟩
    cases howner : owner flat n with
    | none => exact .inl (mem_ownedBy.2 ⟨h, howner⟩)
    | some p =>
      obtain ⟨m, hm, rfl⟩ := mem_map.1 (of_decide_eq_true (Option.filter_eq_some_iff.1 howner).2).2
      exact .inr ⟨m, hm, mem_ownedBy.2 ⟨h, howner⟩⟩

end Complete

/-- The tree shows every entry, each in one place: as a root, or as a child of one other entry. -/
def ShowsAll (sm : SessionManager) : Prop :=
  ∀ getTime fuel, sm.entries.length ≤ fuel → ∃ t, sm.getTree getTime fuel = some t ∧ (∀ n ∈ sm.getFlatTree, t.Shown n) ∧
    (t.roots ++ sm.getFlatTree.flatMap fun p => childrenOf t.nodes p.id).Perm sm.getFlatTree

theorem showsAll_of_reachable {w : World} (hw : Reachable w) : ShowsAll w.sm := by
  intro getTime fuel hfuel
  have hmem : ∀ e, e ∈ w.sm.entries.reverse ↔ ∃ n ∈ w.sm.getFlatTree, n.entry = e := by
    simp [SessionManager.getFlatTree]
  have hne : ∀ n ∈ w.sm.getFlatTree, n.id ≠ "" := fun n hn =>
    hw.wellFormed.ids_ne _ (mem_reverse.1 ((hmem _).2 ⟨n, hn, rfl⟩))
  have hn := nodup_getFlatTree hw.wellFormed.nodup
  have hplaced := placed_foldl hn
  have hwalk : Walk getTime _ _ _ _ := hplaced.walk hn
  obtain ⟨nodes, popped, hsort, hend⟩ := sortFrom_spec hn fuel hwalk (by
    rw [length_nil, Nat.zero_add, SessionManager.getFlatTree, length_map]
    exact hfuel)
  have hkids : ∀ p ∈ w.sm.getFlatTree, (childrenOf nodes p.id).Perm (kids w.sm.getFlatTree p) := by
    intro p hp
    by_cases hpop : p ∈ popped
    · rw [childrenOf, hend.sorted p hpop]
      exact mergeSort_perm _ _
    · rw [childrenOf, hend.unsorted p hp hpop]
      exact .refl _
  refine ⟨⟨nodes, _⟩, by rw [SessionManager.getTree, hsort]; rfl, fun n hn => ?_, ?_⟩
  · exact @shown_of_linked _ ⟨nodes, _⟩ _ hplaced.roots hkids hne (fun e => (hmem e).1) hw.wellFormed.linked n hn
      ((hmem _).2 ⟨n, hn, rfl⟩)
  · exact ((Perm.flatMap_left _ hkids).append_left _).trans (hplaced.roots ▸ perm_ownedBy hn)

theorem showsAll_of_reachable_two : ShowsAll (newWorld.after
    [(.appendMessage (userMessage "ask"), .ofChar 'a'), (.appendMessage (userMessage "go on"), .ofChar 'b')]).sm :=
  showsAll_of_reachable (reachable_newWorld.after (fun _ _ _ => trivial) (by decide))

end Session
end RePrime
