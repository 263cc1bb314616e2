import RePrime.Lib.Text
import RePrime.Session.Codec
import RePrime.Session.Context

/-!
# RePrime.Session.Manager

The session manager: its state, the file it writes, and its operations.

* `World` is the manager together with the file system. A write takes the next of the outcomes the
  file system has in store: it succeeds, or it fails after part of its bytes.
* What an operation draws from outside (the clock, `randomUUID`, session ids, the git context) is
  its `Env`.
* An operation returns its value or the error it throws, and the world it leaves: an exception
  does not undo what was done before it.
-/

namespace RePrime
namespace Session

abbrev Bytes := List UInt8

/-! ## What operations draw from outside -/

/-- The text of a `randomUUID()`. -/
structure Uuid where
  text : String
  length_text : text.toList.length = 36

/-- `randomUUID().slice(0, 8)`. -/
def Uuid.short (u : Uuid) : String := String.ofList (u.text.toList.take 8)

/-- `uuid n i` is the `i`-th `randomUUID()` of the operation's `n`-th `generateId`; `rlmDepth` is
what `resolveSessionRlmDepth` and its siblings find in parent files and the environment. -/
structure Env where
  now : String
  uuid : Nat → Nat → Uuid
  sessionId : Nat → String
  git : Option GitContext
  rlmDepth : Option Nat

/-- Eight characters of a fresh UUID, or a whole one after a hundred that were taken. -/
def generateId (has : String → Bool) (draw : Nat → Uuid) : String :=
  (((List.range 100).map fun i => (draw i).short).find? fun id => !has id).getD (draw 100).text

/-! ## State -/

structure SessionManager where
  sessionId : String
  sessionFile : Option String
  sessionDir : String
  cwd : String
  persist : Bool
  flushed : Bool
  hasAssistantEntry : Bool
  fileEntries : List FileEntry
  byId : Index
  labelsById : OrderedMap String String
  labelTimestampsById : OrderedMap String String
  leafId : Option String

/-- How a write ends: completely, or with an error after the first `written` bytes. -/
inductive Outcome where
  | ok
  | fail (written : Nat)
  deriving DecidableEq, Repr

structure World where
  sm : SessionManager
  files : String → Option Bytes
  outcomes : List Outcome

/-- An operation's value or exception, and the world after it. -/
abbrev Result (α : Type) := Except String α × World

def World.existsSync (w : World) (path : String) : Bool := (w.files path).isSome

def World.nextOutcome (w : World) : Outcome := w.outcomes.headD .ok

def World.put (w : World) (path : String) (bytes : Bytes) : World :=
  { w with files := fun p => if p = path then some bytes else w.files p, outcomes := w.outcomes.tail }

/-- `appendFileSync`: a failing append leaves a prefix of the line behind. -/
def World.appendFile (w : World) (path : String) (bytes : Bytes) : Result Unit :=
  let old := (w.files path).getD []
  match w.nextOutcome with
  | .ok => (.ok (), w.put path (old ++ bytes))
  | .fail n => (.error "write failed", w.put path (old ++ bytes.take n))

/-- `writeFileAtomicSync`: a temporary file renamed over the target, so a failure leaves the target
as it was. -/
def World.writeFileAtomic (w : World) (path : String) (bytes : Bytes) : Result Unit :=
  match w.nextOutcome with
  | .ok => (.ok (), w.put path bytes)
  | .fail _ => (.error "write failed", { w with outcomes := w.outcomes.tail })

/-! ## Reading the state -/

def SessionManager.entries (sm : SessionManager) : List SessionEntry :=
  sm.fileEntries.filterMap FileEntry.entry?

def SessionManager.getHeader (sm : SessionManager) : Option SessionHeader :=
  sm.fileEntries.findSome? FileEntry.header?

def someAssistant (entries : List FileEntry) : Bool := entries.any FileEntry.isAssistant

/-- The path to an entry; `some []` when there is no such entry. -/
def getBranch (sm : SessionManager) (fromId : String) : Option (List SessionEntry) :=
  match sm.byId.get? fromId with
  | none => some []
  | some leaf => pathTo sm.byId leaf

/-- `this.buildSessionContext()`. -/
def SessionManager.buildSessionContext (sm : SessionManager) : Option SessionContext :=
  Session.buildSessionContext sm.fileEntries
    (match sm.leafId with
      | none => .null
      | some id => .id id)
    sm.byId

/-- The variables of the loop of `_buildIndex`. -/
structure IndexScan where
  byId : Index
  labelsById : OrderedMap String String
  labelTimestampsById : OrderedMap String String
  leafId : Option String

def IndexScan.init : IndexScan :=
  { byId := .empty, labelsById := .empty, labelTimestampsById := .empty, leafId := none }

/-- An empty label clears. -/
def labelValue : Option String → Option String
  | some label => if label = "" then none else some label
  | none => none

def setLabel (targetId : String) (value : Option String) (m : OrderedMap String String) :
    OrderedMap String String :=
  match value with
  | some v => m.set targetId v
  | none => m.delete targetId

def IndexScan.step (s : IndexScan) (e : SessionEntry) : IndexScan :=
  let s := { s with byId := s.byId.set e.id e, leafId := some e.id }
  match e.body with
  | .label targetId label =>
    { s with
      labelsById := setLabel targetId (labelValue label) s.labelsById
      labelTimestampsById :=
        setLabel targetId ((labelValue label).map fun _ => e.timestamp) s.labelTimestampsById }
  | _ => s

def SessionManager.buildIndex (sm : SessionManager) : SessionManager :=
  let s := sm.entries.foldl IndexScan.step .init
  { sm with
    byId := s.byId
    labelsById := s.labelsById
    labelTimestampsById := s.labelTimestampsById
    leafId := s.leafId }

def SessionManager.refreshHasAssistantEntry (sm : SessionManager) : SessionManager :=
  { sm with hasAssistantEntry := someAssistant sm.fileEntries }

/-! ## Writing the file -/

/-- The lines joined by newlines, with one more at the end. -/
def contentOf (entries : List FileEntry) : Bytes :=
  List.intercalate [10] (entries.map lineOf) ++ [10]

def World.setFlushed (w : World) (b : Bool) : World := { w with sm := { w.sm with flushed := b } }

def rewriteFile (w : World) : Result Unit :=
  if w.sm.persist = false then (.ok (), w)
  else
    match w.sm.sessionFile with
    | none => (.ok (), w)
    | some path => w.writeFileAtomic path (contentOf w.sm.fileEntries)

def shouldPersistWithoutAssistant (entry : SessionEntry) : Bool :=
  match entry.body with
  | .sessionState _ | .sessionInfo _ => true
  | _ => false

/-- A whole-file rewrite that marks the manager flushed when it succeeds. -/
def rewriteAndFlush (w : World) : Result Unit :=
  match rewriteFile w with
  | (.ok _, w) => (.ok (), w.setFlushed true)
  | (.error e, w) => (.error e, w)

def persist (entry : SessionEntry) (w : World) : Result Unit :=
  if w.sm.persist = false then (.ok (), w)
  else
    match w.sm.sessionFile with
    | none => (.ok (), w)
    | some path =>
      if w.sm.hasAssistantEntry = false ∧ shouldPersistWithoutAssistant entry = false then
        (.ok (), w.setFlushed false)
      else if w.sm.flushed = false ∨ w.existsSync path = false then rewriteAndFlush w
      else w.appendFile path (lineOf (FileEntry.entry entry) ++ [10])

def flushNow (w : World) : Result Unit :=
  if w.sm.persist = false then (.ok (), w)
  else
    match w.sm.sessionFile with
    | none => (.ok (), w)
    | some path =>
      if w.sm.flushed = true ∧ w.existsSync path = true then (.ok (), w) else rewriteAndFlush w

/-- What `_appendEntry` does to the memory. -/
def SessionManager.push (sm : SessionManager) (entry : SessionEntry) : SessionManager :=
  { sm with
    fileEntries := sm.fileEntries ++ [FileEntry.entry entry]
    hasAssistantEntry := sm.hasAssistantEntry || entry.assistant?.isSome
    byId := sm.byId.set entry.id entry
    leafId := some entry.id }

def appendEntry (entry : SessionEntry) (w : World) : Result Unit :=
  persist entry { w with sm := w.sm.push entry }

/-! ## Appends -/

/-- The entry an append makes: a new id, the leaf as its parent. -/
def SessionManager.newEntry (sm : SessionManager) (body : EntryBody) (env : Env) : SessionEntry :=
  { id := generateId sm.byId.has (env.uuid 0)
    parentId := sm.leafId
    timestamp := env.now
    body }

/-- The steps every append shares. -/
def appendBody (body : EntryBody) (env : Env) (w : World) : Result String :=
  let entry := w.sm.newEntry body env
  match appendEntry entry w with
  | (.ok _, w) => (.ok entry.id, w)
  | (.error e, w) => (.error e, w)

def appendMessage (message : AgentMessage) : Env → World → Result String :=
  appendBody (.message message)

def appendThinkingLevelChange (thinkingLevel : String) : Env → World → Result String :=
  appendBody (.thinkingLevelChange thinkingLevel)

def appendServiceTierChange (serviceTier : ServiceTier) : Env → World → Result String :=
  appendBody (.serviceTierChange serviceTier)

def appendModelChange (provider modelId : String) : Env → World → Result String :=
  appendBody (.modelChange provider modelId)

def appendCompaction (c : Compaction) : Env → World → Result String :=
  appendBody (.compaction c)

def appendCustomEntry (customType : String) (data : Option Json.Value) : Env → World → Result String :=
  appendBody (.custom customType data)

def appendSessionInfo (name : String) : Env → World → Result String :=
  appendBody (.sessionInfo (some (Text.trim name)))

def appendSessionState (status : SessionStateStatus) : Env → World → Result String :=
  appendBody (.sessionState status)

def appendAgentStatus (status : AgentStatus) : Env → World → Result String :=
  appendBody (.agentStatus status)

def appendGitState (git : GitContext) : Env → World → Result String :=
  appendBody (.gitState git)

def appendCustomMessageEntry (c : CustomMessageContent) : Env → World → Result String :=
  appendBody (.customMessage c)

/-- `target.message.usage = usage` on the object that is in the file entries and in the index. -/
def SessionEntry.withUsage (usage : Usage) (e : SessionEntry) : SessionEntry :=
  match e.body with
  | .message (.assistant m) => { e with body := .message (.assistant { m with usage }) }
  | _ => e

def FileEntry.withUsage (targetId : String) (usage : Usage) : FileEntry → FileEntry
  | .session h => .session h
  | .entry e => .entry (if e.id = targetId then e.withUsage usage else e)

def SessionManager.setUsage (sm : SessionManager) (target : SessionEntry) (usage : Usage) :
    SessionManager :=
  { sm with
    fileEntries := sm.fileEntries.map (FileEntry.withUsage target.id usage)
    byId := sm.byId.set target.id (target.withUsage usage) }

def appendChildUsageAttribution (targetId : String) (childUsage aggregateUsage : Usage)
    (origin : Option AttributionOrigin) (env : Env) (w : World) : Result String :=
  match w.sm.byId.get? targetId with
  | some target =>
    if target.assistant?.isSome then
      appendBody
        (.childUsageAttributed
          { targetId
            childUsage := cloneUsage childUsage
            aggregateUsage := cloneUsage aggregateUsage
            origin })
        env { w with sm := w.sm.setUsage target (cloneUsage aggregateUsage) }
    else (.error ("Assistant message entry " ++ targetId ++ " not found"), w)
  | none => (.error ("Assistant message entry " ++ targetId ++ " not found"), w)

def SessionManager.applyLabel (sm : SessionManager) (targetId : String) (label : Option String)
    (timestamp : String) : SessionManager :=
  { sm with
    labelsById := setLabel targetId (labelValue label) sm.labelsById
    labelTimestampsById :=
      setLabel targetId ((labelValue label).map fun _ => timestamp) sm.labelTimestampsById }

def appendLabelChange (targetId : String) (label : Option String) (env : Env) (w : World) :
    Result String :=
  if w.sm.byId.has targetId = false then (.error ("Entry " ++ targetId ++ " not found"), w)
  else
    match appendBody (.label targetId label) env w with
    | (.ok id, w) => (.ok id, { w with sm := w.sm.applyLabel targetId label env.now })
    | (.error e, w) => (.error e, w)

/-! ## Rollback -/

/-- The memory without the entry a failed append has indexed. -/
def SessionManager.rollback (sm : SessionManager) (failedId : String) (previousLeafId : Option String) :
    SessionManager :=
  { ({ sm with
        byId := sm.byId.delete failedId
        fileEntries := sm.fileEntries.dropLast } : SessionManager).refreshHasAssistantEntry with
    leafId := previousLeafId
    flushed := false }

/-- The `try` block. -/
def appendAndFlush (append : World → Result String) (w : World) : Result String :=
  match append w with
  | (.error e, w') => (.error e, w')
  | (.ok entryId, w') =>
    match flushNow w' with
    | (.ok _, w'') => (.ok entryId, w'')
    | (.error e, w'') => (.error e, w'')

/-- The `catch` block: restore the file now; if that fails too, the next persist rewrites it. -/
def undoAppend (error : String) (previousLeafId : Option String) (w : World) : Result String :=
  match w.sm.leafId with
  | none => (.error error, w)
  | some leafId =>
    if some leafId = previousLeafId then (.error error, w)
    else
      match flushNow { w with sm := w.sm.rollback leafId previousLeafId } with
      | (.ok _, w') => (.error error, w')
      | (.error _, w') => (.error error, w'.setFlushed false)

def appendEntryWithRollback (append : World → Result String) (w : World) : Result String :=
  match appendAndFlush append w with
  | (.ok entryId, w') => (.ok entryId, w')
  | (.error e, w') => undoAppend e w.sm.leafId w'

def appendCustomEntryWithRollback (customType : String) (data : Option Json.Value) (env : Env) :
    World → Result String :=
  appendEntryWithRollback (appendCustomEntry customType data env)

def appendCustomMessageEntryWithRollback (c : CustomMessageContent) (env : Env) :
    World → Result String :=
  appendEntryWithRollback (appendCustomMessageEntry c env)

/-! ## Branching -/

def branch (branchFromId : String) (w : World) : Result Unit :=
  if w.sm.byId.has branchFromId then (.ok (), { w with sm := { w.sm with leafId := some branchFromId } })
  else (.error ("Entry " ++ branchFromId ++ " not found"), w)

def resetLeaf (w : World) : Result Unit := (.ok (), { w with sm := { w.sm with leafId := none } })

def branchWithSummary (branchFromId : Option String) (summary : String) (details : Option Json.Value)
    (fromHook : Option Bool) (usage : Option Usage) (env : Env) (w : World) : Result String :=
  if branchFromId.any (fun id => !w.sm.byId.has id) then
    (.error ("Entry " ++ branchFromId.getD "" ++ " not found"), w)
  else
    appendBody
      (.branchSummary { fromId := branchFromId.getD "root", summary, details, fromHook, usage }) env
      { w with sm := { w.sm with leafId := branchFromId } }

/-! ## Session files -/

def getSessionFilePath (sessionDir sessionId : String) : String :=
  sessionDir ++ "/" ++ sessionId ++ ".jsonl"

/-- The first of a hundred session ids whose file does not exist yet. -/
def createUniqueSessionFileTarget (exists? : String → Bool) (sessionDir : String)
    (sessionId : Nat → String) : Option (String × String) :=
  ((List.range 100).map fun i => (sessionId i, getSessionFilePath sessionDir (sessionId i))).find?
    fun t => !exists? t.2

def currentVersion : Int := 3

structure NewSessionOptions where
  id : Option String
  parentSession : Option String

/-- The memory of a new session. -/
def SessionManager.start (sm : SessionManager) (sessionId : String) (sessionFile : Option String)
    (options : NewSessionOptions) (env : Env) : SessionManager :=
  { sm with
    sessionId
    sessionFile := if sm.persist then sessionFile else sm.sessionFile
    fileEntries :=
      [.session
        { version := some currentVersion
          id := sessionId
          timestamp := env.now
          cwd := sm.cwd
          parentSession := options.parentSession
          rlmDepth := env.rlmDepth
          git := if sm.persist then env.git else none }]
    hasAssistantEntry := false
    byId := .empty
    labelsById := .empty
    labelTimestampsById := .empty
    leafId := none
    flushed := false }

/-- An empty id counts as none. -/
def newSession (options : NewSessionOptions) (env : Env) (w : World) : Result Unit :=
  if w.sm.persist then
    match options.id.filter fun id => id != "" with
    | some id =>
      let path := getSessionFilePath w.sm.sessionDir id
      if w.existsSync path then
        (.error ("Session file already exists for id \"" ++ id ++ "\": " ++ path), w)
      else (.ok (), { w with sm := w.sm.start id (some path) options env })
    | none =>
      match createUniqueSessionFileTarget w.existsSync w.sm.sessionDir env.sessionId with
      | some (id, path) => (.ok (), { w with sm := w.sm.start id (some path) options env })
      | none => (.error "Unable to create a unique session file", w)
  else (.ok (), { w with sm := w.sm.start (options.id.getD (env.sessionId 0)) none options env })

/-- A manager before its constructor opens a session. -/
def SessionManager.blank (cwd sessionDir : String) (persist : Bool) : SessionManager :=
  { sessionId := ""
    sessionFile := none
    sessionDir
    cwd
    persist
    flushed := false
    hasAssistantEntry := false
    fileEntries := []
    byId := .empty
    labelsById := .empty
    labelTimestampsById := .empty
    leafId := none }

/-- `SessionManager.create` (`persist`) and `SessionManager.inMemory`. -/
def create (cwd sessionDir : String) (persist : Bool) (env : Env) (files : String → Option Bytes) :
    Result Unit :=
  newSession { id := none, parentSession := none } env
    { sm := .blank cwd sessionDir persist, files, outcomes := [] }

/-- `sessionDir` is the directory `sessionDir ?? (this.sessionDir || getDefaultSessionDir(cwd))`. -/
def materializeSessionFile (sessionDir : String) (env : Env) (w : World) : Result String :=
  match w.sm.sessionFile with
  | some path => (.ok path, w)
  | none =>
    match createUniqueSessionFileTarget w.existsSync sessionDir env.sessionId with
    | none => (.error "Unable to create a unique session file", w)
    | some (sessionId, path) =>
      let header : SessionHeader :=
        { version := some currentVersion
          id := sessionId
          timestamp := env.now
          cwd := w.sm.cwd
          parentSession := w.sm.getHeader.bind fun h => h.parentSession
          rlmDepth := env.rlmDepth
          git := env.git }
      let sm : SessionManager :=
        { w.sm with
          sessionDir
          sessionId
          sessionFile := some path
          persist := true
          fileEntries := .session header :: w.sm.entries.map .entry }
      match rewriteAndFlush { w with sm := sm.refreshHasAssistantEntry } with
      | (.ok _, w) => (.ok path, w)
      | (.error e, w) => (.error e, w)

end Session
end RePrime
