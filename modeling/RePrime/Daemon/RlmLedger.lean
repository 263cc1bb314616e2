import RePrime.Lib.OrderedMap
import RePrime.Lib.Text

/-!
# RePrime.Daemon.RlmLedger

`RlmSpawnLedger`: the edges that the recorded spawns, renames and deletions leave, and the family rows that
`family` presents of them and of the session files.

* `replay`: the edges, last writer first served per child id and path.
* `family`: rows for the roots and for the live edges.
* `family_rows`: a file that agreeing edges name is in a row of each and in no other.
-/

namespace RePrime
namespace Daemon
namespace RlmLedger

open List

inductive RlmLedgerDeleteReason where
  | user
  | parentTeardown
  | revoked
  | gc
  deriving DecidableEq

inductive RlmLedgerRecord where
  | spawn (childId parent child : String) (depth : Nat) (name : String)
  | rename (childId child name : String)
  | delete (childId child : String) (reason : RlmLedgerDeleteReason)

structure RlmLedgerEdge where
  childId : String
  parent : String
  child : String
  depth : Nat
  name : String
  deleted : Option RlmLedgerDeleteReason
  deriving DecidableEq

/-- The topology fields of a `SessionInfo`. -/
structure SessionRow where
  path : String
  rlmDepth : Nat
  parentSessionPath : Option String
  name : Option String
  deriving DecidableEq

/-- What the file system shows: the identity of a path, whether a file is there, and the names in the
sessions directory. -/
structure Files where
  canonical : String → String
  isFile : String → Bool
  sessionsDir : String
  names : List String

namespace Files

variable (fs : Files)

/-! ## Replaying the records -/

def edgeKey (childId child : String) : String := childId ++ String.singleton '\x00' ++ fs.canonical child

/-- The key of the edge that a rename or a deletion is about. -/
def edgeForKey (edges : OrderedMap String RlmLedgerEdge) (key childId : String) : Option String :=
  if edges.has key then some key
  else
    match edges.entries.filter fun e => e.2.childId == childId with
    | [sole] => some sole.1
    | _ => none

def update (edges : OrderedMap String RlmLedgerEdge) (key childId : String)
    (f : RlmLedgerEdge → RlmLedgerEdge) : OrderedMap String RlmLedgerEdge :=
  match edgeForKey edges key childId with
  | none => edges
  | some key =>
    match edges.get? key with
    | none => edges
    | some edge => edges.set key (f edge)

def replayRecord (edges : OrderedMap String RlmLedgerEdge) : RlmLedgerRecord → OrderedMap String RlmLedgerEdge
  | .spawn childId parent child depth name =>
    edges.set (fs.edgeKey childId child) { childId, parent, child, depth, name, deleted := none }
  | .rename childId child name =>
    update edges (fs.edgeKey childId child) childId fun edge => { edge with name }
  | .delete childId child reason =>
    update edges (fs.edgeKey childId child) childId fun edge => { edge with deleted := some reason }

def replay (records : List RlmLedgerRecord) : List RlmLedgerEdge :=
  (records.foldl fs.replayRecord .empty).entries.map Prod.snd

/-! ## The family -/

/-- The edges that are not deleted and whose child and parent are there. -/
def liveEdges (edges : List RlmLedgerEdge) : List RlmLedgerEdge :=
  edges.filter fun edge =>
    edge.deleted.isNone && fs.isFile (fs.canonical edge.child) && fs.isFile (fs.canonical edge.parent)

def byChild (alive : List RlmLedgerEdge) : OrderedMap String RlmLedgerEdge :=
  .ofList (alive.map fun edge => (fs.canonical edge.child, edge))

def depthByPath (alive : List RlmLedgerEdge) : OrderedMap String Nat :=
  .ofList (alive.map fun edge => (fs.canonical edge.child, edge.depth))

def sessionFiles : List String :=
  (Text.sort (fs.names.filter fun name => decide (".jsonl".toList <:+ name.toList))).map fun name =>
    fs.canonical (fs.sessionsDir ++ "/" ++ name)

def rootPaths (alive : List RlmLedgerEdge) : List String :=
  fs.sessionFiles.filter fun path => !(fs.byChild alive).has path

/-- The depth of an edge is not contradicted by the depth of its parent. -/
def agrees (alive : List RlmLedgerEdge) (edge : RlmLedgerEdge) : Bool :=
  match (fs.depthByPath alive).get? (fs.canonical edge.parent) with
  | none => true
  | some parentDepth => edge.depth == parentDepth + 1

def sessionRow (path : String) (depth : Nat) (parentPath name : String) : SessionRow :=
  { path
    rlmDepth := depth
    parentSessionPath := if parentPath = "" then none else some parentPath
    name := if name = "" then none else some name }

def familyUnlocked (alive : List RlmLedgerEdge) : List SessionRow :=
  ((fs.rootPaths alive).map fun path => sessionRow path 0 "" "") ++
    (alive.filter (fs.agrees alive)).map fun edge =>
      sessionRow (fs.canonical edge.child) edge.depth (fs.canonical edge.parent) edge.name

def family (records : List RlmLedgerRecord) : List SessionRow :=
  fs.familyUnlocked (fs.liveEdges (fs.replay records))

/-! ## The rows of a file -/

/-- The edges that name a file as their child. -/
def naming (edges : List RlmLedgerEdge) (path : String) : List RlmLedgerEdge :=
  edges.filter fun edge => fs.canonical edge.child == path

def rowsOf (rows : List SessionRow) (path : String) : Nat := rows.countP fun row => row.path == path

variable {fs} {alive : List RlmLedgerEdge} {path : String}

theorem has_byChild : (fs.byChild alive).has path = true ↔ fs.naming alive path ≠ [] := by
  rw [← Bool.not_eq_false, OrderedMap.has_eq_false_iff, byChild, OrderedMap.get?_ofList_eq_none, Ne, not_iff_not,
    naming, filter_eq_nil_iff]
  simp

theorem rows_rootPaths : ((fs.rootPaths alive).map fun p => sessionRow p 0 "" "").filter (fun row => row.path == path) =
    if fs.naming alive path = [] then replicate (fs.sessionFiles.count path) (sessionRow path 0 "" "") else [] := by
  have hroots : (fs.rootPaths alive).filter (fun p => p == path) =
      if fs.naming alive path = [] then replicate (fs.sessionFiles.count path) path else [] := by
    rw [filter_beq, rootPaths]
    by_cases hnaming : fs.naming alive path = []
    · have hfree : (fs.byChild alive).has path = false := by
        rw [← Bool.not_eq_true, has_byChild, not_not]
        exact hnaming
      rw [if_pos hnaming, count_filter (by rw [hfree]; rfl)]
    · rw [if_neg hnaming, count_eq_zero_of_not_mem, replicate_zero]
      intro hmem
      rw [mem_filter, has_byChild.2 hnaming] at hmem
      cases hmem.2
  have hmap := congrArg (map fun p => sessionRow p 0 "" "") hroots
  rw [apply_ite (map _), map_replicate, map_nil] at hmap
  rw [filter_map, ← hmap]
  rfl

/-- A file is listed as a root unless a live edge names it, and below its parent for each edge that agrees. -/
theorem rows_familyUnlocked : (fs.familyUnlocked alive).filter (fun row => row.path == path) =
    (if fs.naming alive path = [] then replicate (fs.sessionFiles.count path) (sessionRow path 0 "" "") else []) ++
      ((fs.naming alive path).filter (fs.agrees alive)).map fun edge =>
        sessionRow path edge.depth (fs.canonical edge.parent) edge.name := by
  rw [familyUnlocked, filter_append, rows_rootPaths, filter_map, naming, filter_comm]
  congr 1
  refine map_congr_left ?_
  intro edge hedge
  have hpath : fs.canonical edge.child = path := eq_of_beq (mem_filter.1 (mem_filter.1 hedge).1).2
  rw [hpath]

/-- The rows of a child file are one for each live edge that names it and agrees with the depth of its parent, below
that parent; those of a session file that no live edge names are roots, one for each name it has in the sessions
directory. -/
theorem family_rows (fs : Files) (records : List RlmLedgerRecord) (path : String) :
    let alive := fs.liveEdges (fs.replay records)
    let agreeing := (fs.naming alive path).filter (fs.agrees alive)
    let rows := (fs.family records).filter fun row => row.path == path
    (agreeing ≠ [] → rows = agreeing.map fun edge =>
        sessionRow path edge.depth (fs.canonical edge.parent) edge.name) ∧
      (fs.naming alive path = [] → rows = replicate (fs.sessionFiles.count path) (sessionRow path 0 "" "")) := by
  intro alive agreeing rows
  have hrows : rows = _ := rows_familyUnlocked
  rw [hrows]
  constructor
  · intro hagreeing
    have hnaming : fs.naming alive path ≠ [] := by
      intro hnil
      exact hagreeing (filter_eq_nil_iff.2 (by rw [hnil]; simp))
    rw [if_neg hnaming, nil_append]
  · intro hnil
    rw [if_pos hnil, hnil]
    exact append_nil _

end Files

/-- A sessions directory with one root. -/
def oneRoot : Files := ⟨id, fun _ => true, "/s", ["r.jsonl"]⟩

/-- The edge of `/x/b.jsonl` contradicts the depth of its parent, and two edges name `/x/c.jsonl`. -/
theorem family_drops_and_repeats :
    let records := [.spawn "a" "/s/r.jsonl" "/x/a.jsonl" 1 "", .spawn "b" "/x/a.jsonl" "/x/b.jsonl" 5 "",
      .spawn "c" "/s/r.jsonl" "/x/c.jsonl" 1 "", .spawn "d" "/s/r.jsonl" "/x/c.jsonl" 1 ""]
    Files.rowsOf (oneRoot.family records) "/x/b.jsonl" = 0 ∧
      Files.rowsOf (oneRoot.family records) "/x/c.jsonl" = 2 := by
  decide +kernel

end RlmLedger
end Daemon
end RePrime
