import Mathlib.Data.List.Basic
import Mathlib.Data.Option.Basic
import Mathlib.Data.List.DropRight
import RePrime.Lib.OrderedMap
import RePrime.Lib.Text

/-!
# RePrime.Core.Harness

The harness store: one state file that the kernel's `HarnessState` (`rlm/harness.py`) and the host's
refinements (`refinement.ts`) both rewrite as a whole.

* `KernelOp.perform`: `upsert`, `create`, `update`, `delete` and `record_refinement` on the kernel's copy.
* `loadHarnessState`, `applyRefinementProposal`: the host's read of the file and its edits.
* `step`: the file steps of both sides. The kernel compares the time stamp of the file with the one it
  recorded, loads, replaces the file and records the new stamp, the host reads and replaces it.

An entry's `kind` and `id` are its key here: both sides write them so, and the kernel's `load` sets them from
the key. Calls that go to another store (`_global_target`) are calls on that store's file, and the ids are
those left when the `local:` or `global:` in front is taken off.
-/

namespace RePrime
namespace Core
namespace Harness

inductive HarnessKind where
  | prompt | memory | skill | subagent
deriving DecidableEq, Repr

def HarnessKind.text : HarnessKind → String
  | prompt => "prompt"
  | memory => "memory"
  | skill => "skill"
  | subagent => "subagent"

inductive HarnessScope where
  | localStore | globalStore
deriving DecidableEq, Repr

/-- The key of an entry in the file: `entries[kind][id]`. -/
abbrev Key := HarnessKind × String

structure HarnessEntry (V : Type) where
  title : String
  content : String
  path : String
  scope : HarnessScope
  reference : V
  arguments : V
  metadata : V
  source : String
  createdAt : String
  updatedAt : String
  version : Nat
deriving DecidableEq

structure RefinementEvent where
  id : String
  trigger : String
  changes : List String
  evidence : String
  outcome : String
  createdAt : String
deriving DecidableEq

/-- What the state file holds, and the copy that a side works on. -/
structure Document (V : Type) where
  entries : OrderedMap Key (HarnessEntry V)
  refinements : List RefinementEvent

def Document.empty {V : Type} : Document V := ⟨OrderedMap.empty, []⟩

/-- What both languages do with characters, and with the objects that an entry carries. `parsed v` is what
`JSON.parse` makes of the text that `json.dump` wrote of `v`: it refuses `NaN` and rounds long integers. -/
structure Builtins (V : Type) where
  emptyRecord : V
  /-- The member of that name, when it is a string. -/
  text : V → String → Option String
  parsed : V → Option V
  parsed_emptyRecord : parsed emptyRecord = some emptyRecord
  strip : String → String
  isalnum : Char → Bool
  lower : Char → String
  toLowerCase : String → String

variable {V : Type}

/-! ### The kernel -/

/-- `_slug` of `harness.py`. -/
def kernelSlug (B : Builtins V) (raw fallback : String) : String :=
  let normalized := String.join ((B.strip raw).toList.map fun ch => if B.isalnum ch then B.lower ch else "_")
  let normalized := String.intercalate "_" ((normalized.splitOn "_").filter (· ≠ ""))
  String.ofList ((if normalized = "" then fallback else normalized).toList.take 80)

structure EntryArgs (V : Type) where
  kind : HarnessKind
  title : String
  content : String
  id : Option String
  path : Option String
  reference : Option V
  arguments : Option V
  metadata : Option V
  source : String

/-- `id or _slug(title, kind)`. -/
def EntryArgs.entryId (B : Builtins V) (a : EntryArgs V) : String :=
  match a.id with
  | some id => if id = "" then kernelSlug B a.title a.kind.text else id
  | none => kernelSlug B a.title a.kind.text

def EntryArgs.key (B : Builtins V) (a : EntryArgs V) : Key := (a.kind, a.entryId B)

/-- The entry that `_upsert` leaves: what the caller omits is kept from the existing one. -/
def EntryArgs.entry (B : Builtins V) (scope : HarnessScope) (now : Nat → String) (a : EntryArgs V) :
    Option (HarnessEntry V) → HarnessEntry V
  | some existing =>
    { existing with
      title := a.title
      content := a.content
      path := a.path.getD existing.path
      reference := a.reference.getD existing.reference
      arguments := a.arguments.getD existing.arguments
      metadata := a.metadata.getD existing.metadata
      source := a.source
      updatedAt := now 0
      version := existing.version + 1 }
  | none =>
    { title := a.title
      content := a.content
      path := a.path.getD "general"
      scope := scope
      reference := a.reference.getD B.emptyRecord
      arguments := a.arguments.getD B.emptyRecord
      metadata := a.metadata.getD B.emptyRecord
      source := a.source
      createdAt := now 0
      updatedAt := now 1
      version := 1 }

/-- A document with edits made in it: the entries that were edited and the events that were appended. -/
structure Edited (V : Type) where
  document : Document V
  keys : List Key
  events : List RefinementEvent

/-- `_upsert`, up to its `save`. -/
def upsertEntry (B : Builtins V) (scope : HarnessScope) (now : Nat → String) (doc : Document V)
    (a : EntryArgs V) : Edited V where
  document :=
    { doc with entries := doc.entries.set (a.key B) (a.entry B scope now (doc.entries.get? (a.key B))) }
  keys := [a.key B]
  events := []

inductive KernelOp (V : Type) where
  | upsert (args : EntryArgs V)
  | create (args : EntryArgs V)
  | update (id : String) (args : EntryArgs V)
  | delete (kind : HarnessKind) (id : String)
  | recordRefinement (trigger : String) (changes : List String) (evidence outcome : String) (id : Option String)

/-- `refine_{n:04d}`. -/
def refinementId (n : Nat) : String :=
  "refine_" ++ String.ofList (List.replicate (4 - (toString n).length) '0') ++ toString n

/-- The operation on the copy, after `_sync_from_disk` and up to `save`. `none` when it raises or returns
before it edits anything. -/
def KernelOp.perform (B : Builtins V) (scope : HarnessScope) (now : Nat → String) (doc : Document V) :
    KernelOp V → Option (Edited V)
  | upsert a => some (upsertEntry B scope now doc a)
  | create a =>
    if doc.entries.has (a.key B) then none
    else some (upsertEntry B scope now doc { a with id := some (a.entryId B) })
  | update id a =>
    if doc.entries.has (a.kind, id) then some (upsertEntry B scope now doc { a with id := some id }) else none
  | delete kind id =>
    if doc.entries.has (kind, id) then
      some
        { document := { doc with entries := doc.entries.delete (kind, id) }
          keys := [(kind, id)]
          events := [] }
    else none
  | recordRefinement trigger changes evidence outcome id =>
    let eventId :=
      match id with
      | some id => if id = "" then refinementId (doc.refinements.length + 1) else id
      | none => refinementId (doc.refinements.length + 1)
    let event : RefinementEvent :=
      { id := eventId
        trigger := trigger
        changes := changes
        evidence := evidence
        outcome := outcome
        createdAt := now 0 }
    some
      { document := { doc with refinements := doc.refinements ++ [event] }
        keys := []
        events := [event] }

/-! ### The host -/

def HarnessEntry.parsed (B : Builtins V) (e : HarnessEntry V) : Option (HarnessEntry V) := do
  let reference ← B.parsed e.reference
  let arguments ← B.parsed e.arguments
  let metadata ← B.parsed e.metadata
  return { e with reference := reference, arguments := arguments, metadata := metadata }

/-- `loadHarnessState`. A file that does not parse counts as empty, and assigning the key `__proto__` of a
record makes no entry. -/
def loadHarnessState (B : Builtins V) : Option (Document V) → Document V
  | none => .empty
  | some doc =>
    match doc.entries.entries.mapM fun e => (e.2.parsed B).map (e.1, ·) with
    | none => .empty
    | some entries => ⟨.ofList (entries.filter fun e => e.1.2 ≠ "__proto__"), doc.refinements⟩

/-- A copy that `cloneEntry` makes: of an entry, or of the prototype of the record, which `__proto__` is the name of
and whose copy is `{}`. -/
inductive Snapshot (V : Type) where
  | entry (entry : HarnessEntry V)
  | prototype
deriving DecidableEq

/-- The entry that members are read from. -/
def Snapshot.entry? : Snapshot V → Option (HarnessEntry V)
  | entry e => some e
  | prototype => none

/-- `cloneEntry(records[id])`. It throws on a function that the record inherits. -/
def cloneEntry (entries : OrderedMap Key (HarnessEntry V)) (key : Key) : Option (Option (Snapshot V)) :=
  match entries.get? key with
  | some entry => some (some (.entry entry))
  | none =>
    if key.2 ∈ OrderedMap.inheritedNames then none
    else if key.2 = "__proto__" then some (some .prototype)
    else some none

/-- `records[id] = after`. Assigning the key `__proto__` makes no entry. It replaces the prototype, and what later
lookups inherit from the new one is left out. -/
def assignEntry (entries : OrderedMap Key (HarnessEntry V)) (key : Key) (after : HarnessEntry V) :
    OrderedMap Key (HarnessEntry V) :=
  if key.2 = "__proto__" ∧ entries.has key = false then entries else entries.set key after

/-- `cloneEntry(baselineState?.entries[kind][id])`. -/
def cloneBaseline (baseline : Option (Document V)) (key : Key) : Option (Option (Snapshot V)) :=
  match baseline with
  | some baseline => cloneEntry baseline.entries key
  | none => some none

inductive RefinementAction where
  | create | update | delete
deriving DecidableEq, Repr

def RefinementAction.text : RefinementAction → String
  | create => "create"
  | update => "update"
  | delete => "delete"

/-- What stands for an action or a kind and is none of the known ones: a text, or another value, a missing one too.
`shown` is `String(value)`, `none` where that throws (an object may hide its `toString`). -/
inductive Unknown where
  | text (text : String)
  | value (shown : Option String)
deriving DecidableEq

def Unknown.shown : Unknown → Option String
  | text raw => some raw
  | value shown => shown

/-- An edit of a normalized proposal. -/
structure RefinementEdit (V : Type) where
  action : Except Unknown RefinementAction
  kind : Except Unknown HarnessKind
  id : Option String
  title : Option String
  content : Option String
  path : Option String
  reference : Option V
  arguments : Option V
  metadata : Option V

def RefinementEdit.actionText (edit : RefinementEdit V) : String :=
  match edit.action with
  | .ok action => action.text
  | .error unknown => unknown.shown.getD ""

def RefinementEdit.kindText (edit : RefinementEdit V) : String :=
  match edit.kind with
  | .ok kind => kind.text
  | .error unknown => unknown.shown.getD ""

/-- The edit throws before anything is looked up: `slug` trims a kind that is no text, or the message of the refusal
shows a value that has no text. -/
def RefinementEdit.throws (edit : RefinementEdit V) : Bool :=
  match edit.action, edit.kind with
  | .error action, _ => action.shown.isNone
  | .ok action, .error (.value shown) =>
    shown.isNone || (action == .create && edit.id.isNone && edit.title.isNone)
  | .ok _, _ => false

def isSlugChar (c : Char) : Bool := c.isLower || c.isDigit

/-- `replace(/[^a-z0-9]+/g, "_")`, where `inRun` says that the run goes on. -/
def collapseRuns (inRun : Bool) : List Char → List Char
  | [] => []
  | c :: cs =>
    if isSlugChar c then c :: collapseRuns false cs
    else if inRun then collapseRuns true cs
    else '_' :: collapseRuns true cs

/-- `slug` of `refinement.ts`. -/
def hostSlug (B : Builtins V) (raw fallback : String) : String :=
  let normalized := collapseRuns false (B.toLowerCase (Text.trim raw)).toList
  let normalized := ((normalized.dropWhile (· = '_')).rdropWhile (· = '_')).take 80
  if normalized = [] then fallback else String.ofList normalized

/-- For a kind that is no text its text stands in: such an edit is refused under any id. -/
def RefinementEdit.computedId (B : Builtins V) (edit : RefinementEdit V) : Option String :=
  match edit.id with
  | some id => some id
  | none =>
    if edit.action = .ok .create then some (hostSlug B (edit.title.getD edit.kindText) edit.kindText) else none

/-- A string that is missing or empty. -/
def falsy (s : Option String) : Bool := s.getD "" = ""

/-- The checks of a skill's Python reference. -/
def validateReference (B : Builtins V) (action : String) : Option V → Option String
  | none => some (action ++ " skill requires python reference")
  | some reference =>
    if B.text reference "type" ≠ some "python" then some (action ++ " skill reference.type must be python")
    else if falsy (B.text reference "import") && falsy (B.text reference "python_import") then
      some (action ++ " skill requires python import")
    else if falsy (B.text reference "callable") && falsy (B.text reference "call_pattern") then
      some (action ++ " skill requires callable or call_pattern")
    else none

def validateEdit (B : Builtins V) (edit : RefinementEdit V) (computedId : String) : Option String :=
  match edit.action with
  | .error _ => some ("unsupported action " ++ edit.actionText)
  | .ok action =>
    match edit.kind with
    | .error _ => some ("unsupported kind " ++ edit.kindText)
    | .ok kind =>
      if kind = .prompt ∧ (edit.id = some "base_system_prompt" ∨ computedId = "base_system_prompt") then
        some "base system prompt is not editable"
      else if action ≠ .create ∧ falsy edit.id then some (action.text ++ " requires id")
      else if action ≠ .delete ∧ (falsy edit.title ∨ falsy edit.content) then
        some (action.text ++ " requires title and content")
      else if action ≠ .delete ∧ kind = .skill ∧ edit.arguments.isNone then
        some (action.text ++ " skill requires arguments")
      else if action ≠ .delete ∧ kind = .skill then validateReference B action.text edit.reference
      else none

structure AppliedRefinementEdit (V : Type) where
  edit : RefinementEdit V
  id : String
  before : Option (Snapshot V)
  after : Option (HarnessEntry V)
  applied : Bool
  error : Option String

/-- The entry that a create or an update leaves. -/
def RefinementEdit.after (B : Builtins V) (scope : HarnessScope) (createdAt updatedAt : String) (id : String)
    (edit : RefinementEdit V) (before : Option (HarnessEntry V)) : HarnessEntry V where
  title := edit.title.getD ((before.map (·.title)).getD id)
  content := edit.content.getD ((before.map (·.content)).getD "")
  path := edit.path.getD ((before.map (·.path)).getD "general")
  scope := (before.map (·.scope)).getD scope
  reference := edit.reference.getD ((before.map (·.reference)).getD B.emptyRecord)
  arguments := edit.arguments.getD ((before.map (·.arguments)).getD B.emptyRecord)
  metadata := edit.metadata.getD ((before.map (·.metadata)).getD B.emptyRecord)
  source := "refine"
  createdAt := (before.map (·.createdAt)).getD createdAt
  updatedAt := updatedAt
  version := (before.map (·.version + 1)).getD 1

/-- The loop of `applyRefinementProposal` over the edits. -/
structure Applying (V : Type) where
  entries : OrderedMap Key (HarnessEntry V)
  appliedEdits : List (AppliedRefinementEdit V)
  modifiedKeys : List Key

variable [DecidableEq V]

/-- One edit, `none` when it throws. The `i`-th reading of the clock is `now i`. -/
def applyEdit (B : Builtins V) (scope : HarnessScope) (baseline : Option (Document V)) (now : Nat → String)
    (s : Applying V) (edit : RefinementEdit V) : Option (Applying V) :=
  let id := (edit.computedId B).getD ""
  let refuse before error : Applying V :=
    { s with appliedEdits := s.appliedEdits ++ [⟨edit, id, before, none, false, some error⟩] }
  if edit.throws then none
  else match validateEdit B edit id, edit.kind, edit.action with
  | some error, _, _ => some (refuse none error)
  | none, .ok kind, .ok action => do
    let before ← cloneEntry s.entries (kind, id)
    let was ← cloneBaseline baseline (kind, id)
    if baseline.isSome ∧ (kind, id) ∉ s.modifiedKeys ∧ before ≠ was then
      return refuse before "entry changed during refinement planning"
    match action, before with
    | .delete, none => return refuse none "entry not found"
    | .delete, some before =>
      return { entries := s.entries.delete (kind, id)
               appliedEdits := s.appliedEdits ++ [⟨edit, id, some before, none, true, none⟩]
               modifiedKeys := s.modifiedKeys ++ [(kind, id)] }
    | .create, some before => return refuse (some before) "entry already exists"
    | .update, none => return refuse none "entry not found"
    | _, before =>
      let n := 2 * s.appliedEdits.length
      let after := edit.after B scope (now n) (now (n + 1)) id (before.bind Snapshot.entry?)
      return { entries := assignEntry s.entries (kind, id) after
               appliedEdits := s.appliedEdits ++ [⟨edit, id, before, some after, true, none⟩]
               modifiedKeys := s.modifiedKeys ++ [(kind, id)] }
  -- An edit that passes has an action and a kind.
  | none, _, _ => some s

/-- A refinement: its proposal, its id, the state that the planning started from and the clock. -/
structure HostJob (V : Type) where
  id : String
  summary : String
  rationale : String
  expectedOutcome : String
  edits : List (RefinementEdit V)
  baselineState : Option (Document V)
  now : Nat → String

def applyRefinementProposal (B : Builtins V) (scope : HarnessScope) (doc : Document V) (job : HostJob V) :
    Option (Edited V × List (AppliedRefinementEdit V)) := do
  let s ← job.edits.foldlM (applyEdit B scope job.baselineState job.now) ⟨doc.entries, [], []⟩
  let changes := (s.appliedEdits.filter (·.applied)).map fun e =>
    e.edit.actionText ++ " " ++ e.edit.kindText ++ ":" ++ e.id
  let event : RefinementEvent :=
    { id := job.id
      trigger := job.summary
      changes := changes
      evidence := job.rationale
      outcome := job.expectedOutcome
      createdAt := job.now (2 * job.edits.length) }
  return ({ document := ⟨s.entries, doc.refinements ++ [event]⟩, keys := s.modifiedKeys, events := [event] },
    s.appliedEdits)

/-! ### The file steps -/

structure KernelCall (V : Type) where
  op : KernelOp V
  now : Nat → String

/-- Where the kernel is. A load carries the call that it is for, `none` for the constructor's load and for
`get` and `list`. -/
inductive KernelPhase (V : Type) where
  | idle
  /-- In `load`, before `exists`. -/
  | loading (call : Option (KernelCall V))
  /-- The file exists. -/
  | present (call : Option (KernelCall V))
  /-- `mtime` has been read. -/
  | reading (call : Option (KernelCall V)) (mtime : Option Nat)
  /-- The copy is edited, before `os.replace`. -/
  | saving
  /-- The file is replaced, before its time stamp is recorded. -/
  | stamping

inductive HostPhase (V : Type) where
  | idle
  /-- The file exists. -/
  | reading (job : HostJob V)
  /-- The proposal is applied, before the file is replaced. -/
  | saving (edited : Edited V)

structure State (V : Type) where
  /-- The state file with its time stamp. -/
  file : Option (Document V × Nat)
  /-- The time stamp of the next write. -/
  clock : Nat
  /-- The kernel's `entries` and `refinements`. -/
  copy : Document V
  /-- The kernel's `_loaded_mtime`. -/
  loadedMtime : Option Nat
  kernel : KernelPhase V
  host : HostPhase V
  /-- Not in the source: what the kernel has edited in its copy since the copy was read or saved. -/
  unsaved : List Key
  unsavedEvents : List RefinementEvent
  /-- Not in the source: each entry as the side that edited it last has saved it, `none` when that side has
  deleted it, and every refinement event that a side has saved. -/
  savedEntry : Key → Option (HarnessEntry V)
  savedEvents : List RefinementEvent

namespace State

/-- What is in the file, nothing when there is none. -/
def content (s : State V) : Document V := (s.file.map Prod.fst).getD .empty

/-- `_disk_mtime`. -/
def diskMtime (s : State V) : Option Nat := s.file.map Prod.snd

/-- A kernel that is about to be constructed beside a file that may be there. -/
def init (file : Option (Document V)) : State V where
  file := file.map (·, 0)
  clock := 1
  copy := .empty
  loadedMtime := none
  kernel := .loading none
  host := .idle
  unsaved := []
  unsavedEvents := []
  savedEntry k := (file.getD .empty).entries.get? k
  savedEvents := (file.getD .empty).refinements

/-- The call goes on with a copy that is in step with the file. -/
def perform (B : Builtins V) (scope : HarnessScope) (call : Option (KernelCall V)) (s : State V) : State V :=
  match call.bind fun call => call.op.perform B scope call.now s.copy with
  | none => { s with kernel := .idle }
  | some edited =>
    { s with
      copy := edited.document
      kernel := .saving
      unsaved := s.unsaved ++ edited.keys
      unsavedEvents := s.unsavedEvents ++ edited.events }

def applyJob (B : Builtins V) (scope : HarnessScope) (job : HostJob V) (doc : Document V) (s : State V) :
    State V :=
  match applyRefinementProposal B scope doc job with
  | none => { s with host := .idle }
  | some (edited, _) => { s with host := .saving edited }

/-- `os.replace`: the file gets the document and a new time stamp, and the edits count as saved. -/
def write (edited : Edited V) (s : State V) : State V :=
  { s with
    file := some (edited.document, s.clock)
    clock := s.clock + 1
    savedEntry := fun k => if k ∈ edited.keys then edited.document.entries.get? k else s.savedEntry k
    savedEvents := s.savedEvents ++ edited.events }

end State

inductive Action (V : Type) where
  /-- The kernel's time stamp check, at the start of a call. -/
  | kernelCheck (call : Option (KernelCall V))
  | kernelExists
  | kernelMtime
  | kernelRead
  | kernelReplace
  /-- Writing the temporary file fails. -/
  | kernelFail
  | kernelStamp
  | hostExists (job : HostJob V)
  | hostRead
  | hostReplace
  | hostFail

def step (B : Builtins V) (scope : HarnessScope) (s : State V) : Action V → Option (State V)
  | .kernelCheck call =>
    match s.kernel with
    | .idle =>
      some (if s.diskMtime ≠ s.loadedMtime then { s with kernel := .loading call } else s.perform B scope call)
    | _ => none
  | .kernelExists =>
    match s.kernel, s.file with
    | .loading call, none => some ({ s with loadedMtime := none }.perform B scope call)
    | .loading call, some _ => some { s with kernel := .present call }
    | _, _ => none
  | .kernelMtime =>
    match s.kernel with
    | .present call => some { s with kernel := .reading call s.diskMtime }
    | _ => none
  | .kernelRead =>
    match s.kernel with
    | .reading call mtime =>
      some ({ s with
        copy := s.content, loadedMtime := mtime, unsaved := [], unsavedEvents := [] }.perform B scope call)
    | _ => none
  | .kernelReplace =>
    match s.kernel with
    | .saving =>
      some { s.write ⟨s.copy, s.unsaved, s.unsavedEvents⟩ with
        kernel := .stamping, unsaved := [], unsavedEvents := [] }
    | _ => none
  | .kernelFail =>
    match s.kernel with
    | .saving => some { s with kernel := .idle }
    | _ => none
  | .kernelStamp =>
    match s.kernel with
    | .stamping => some { s with loadedMtime := s.diskMtime, kernel := .idle }
    | _ => none
  | .hostExists job =>
    match s.host, s.file with
    | .idle, none => some (s.applyJob B scope job .empty)
    | .idle, some _ => some { s with host := .reading job }
    | _, _ => none
  | .hostRead =>
    match s.host with
    | .reading job => some (s.applyJob B scope job (loadHarnessState B (s.file.map Prod.fst)))
    | _ => none
  | .hostReplace =>
    match s.host with
    | .saving edited => some { s.write edited with host := .idle }
    | _ => none
  | .hostFail =>
    match s.host with
    | .saving _ => some { s with host := .idle }
    | _ => none

end Harness
end Core
end RePrime
