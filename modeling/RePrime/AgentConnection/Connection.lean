import Mathlib.Data.List.Basic

/-!
# RePrime.AgentConnection.Connection

The client's end of a daemon session: `DaemonAgentConnection` with what its message handlers read and write.

* `Connection.handleDaemonMessage`: events, snapshots and notices of the session it is bound to.
* `Connection.attached`, `Connection.flushBufferedSessionEvents`: the reply to an attach, and the end of deferral.
* `Connection.log` is not in the source: it records what has happened to the stream, in order.
-/

namespace RePrime
namespace AgentConnection

/-! ## Messages -/

structure DaemonEventCursor where
  generation : String
  sequence : Nat
  deriving DecidableEq

/-- The `meta` of a message: none, a sequence alone, or what `createDaemonEventMeta` gives, a cursor whose
sequence is that of the message. -/
inductive DaemonEventMeta where
  | absent
  | sequenced (sequence : Nat)
  | cursor (cursor : DaemonEventCursor)
  deriving DecidableEq

namespace DaemonEventMeta

/-- `getDaemonMessageSequence` -/
def sequence? : DaemonEventMeta → Option Nat
  | absent => none
  | sequenced n => some n
  | cursor k => some k.sequence

/-- `getDaemonMessageCursor` -/
def cursor? : DaemonEventMeta → Option DaemonEventCursor
  | cursor k => some k
  | _ => none

end DaemonEventMeta

inductive Role where
  | user
  | assistant
  | other (role : String)
  deriving DecidableEq

structure AgentMessage where
  role : Role
  content : String
  deriving DecidableEq

structure RlmChild where
  id : String
  status : String
  deriving DecidableEq

inductive AgentSessionEvent where
  | messageStart (message : AgentMessage)
  | messageUpdate (message : AgentMessage)
  | messageEnd (message : AgentMessage)
  | agentEnd
  | rlmChildUpdate (child : RlmChild)
  | other (type : String)
  deriving DecidableEq

structure ConnectionState where
  sessionId : String
  sessionFile : Option String
  recap : Option String
  deriving DecidableEq

/-- `lastEventCursor` has the sequence `lastEventSequence`, and is optional on the wire. -/
structure DaemonSessionSnapshot where
  state : ConnectionState
  messages : List AgentMessage
  streamingMessage : Option AgentMessage
  children : Option (List RlmChild)
  lastEventSequence : Nat
  generation : Option String
  deriving DecidableEq

def DaemonSessionSnapshot.lastEventCursor (snapshot : DaemonSessionSnapshot) : Option DaemonEventCursor :=
  snapshot.generation.map fun generation => ⟨generation, snapshot.lastEventSequence⟩

structure DaemonAttachResult where
  snapshot : DaemonSessionSnapshot
  lastEventSequence : Nat
  generation : Option String

def DaemonAttachResult.lastEventCursor (result : DaemonAttachResult) : Option DaemonEventCursor :=
  result.generation.map fun generation => ⟨generation, result.lastEventSequence⟩

/-- What a snapshot that came in chunks is for. An attach takes it if the reply to it has come and the
session is still the one of that revision. -/
inductive Purpose where
  | attach (revision : Option Nat)
  | replacement
  | resync

inductive Body where
  | sessionEvent (event : AgentSessionEvent)
  | sideQuestionEvent (event : String)
  | sessionStatus (recap : Option String)
  | sessionReplaced (state : ConnectionState) (messages : List AgentMessage) (snapshotFollows : Bool)
  | sessionResynced (snapshot : DaemonSessionSnapshot)
  | extensionError (error : String)
  | sessionClosed (update : Bool)
  | extensionUiRequest (id : String)
  | sessionSnapshotEnd (purpose : Purpose) (snapshot : DaemonSessionSnapshot)

structure DaemonOutbound where
  activeSessionId : String
  stamp : DaemonEventMeta
  body : Body

/-! ## The connection -/

structure AgentConnectionSnapshot where
  state : ConnectionState
  messages : List AgentMessage
  streamingMessage : Option AgentMessage
  children : Option (List RlmChild)
  lastEventSequence : Option Nat
  lastEventCursor : Option DaemonEventCursor
  deriving DecidableEq

structure Deferred where
  event : AgentSessionEvent
  sequence : Option Nat
  generation : Option String
  deriving DecidableEq

/-- What listeners are told. -/
inductive AgentConnectionEvent where
  | sessionEvent (event : AgentSessionEvent)
  | sideQuestionEvent (event : String)
  | sessionStatus (recap : Option String)
  | sessionReplaced (state : ConnectionState) (messages : List AgentMessage)
  | sessionResynced (snapshot : Option AgentConnectionSnapshot)
  | extensionError (error : String)
  | extensionUiRequest (id : String)
  | closed
  deriving DecidableEq

/-- A message is taken, a snapshot is applied, a generation is retired, or listeners are told of an event
that came with a cursor or without. -/
inductive Happening where
  | taken (cursor : DaemonEventCursor)
  | snapshot (cursor : DaemonEventCursor)
  | retired (generation : String)
  | emitted (event : AgentConnectionEvent) (cursor : Option DaemonEventCursor)
  deriving DecidableEq

structure Connection where
  activeSessionId : String
  lastEventCursor : Option DaemonEventCursor
  retiredEventGenerations : List String
  lastEventSequence : Option Nat
  childRosterSequence : Option Nat
  latestSnapshot : Option AgentConnectionSnapshot
  latestSnapshotIsFresh : Bool
  latestSnapshotStateIsFresh : Bool
  deferredSessionEvents : List Deferred
  deferSessionEvents : Bool
  deferredSessionEventsOverflowed : Bool
  sessionRevision : Nat
  attachedSessionId : Option String
  attachedSessionFile : Option String
  closed : Bool
  log : List Happening

/-- `MAX_DEFERRED_SESSION_EVENTS` -/
def maxDeferredSessionEvents : Nat := 1000

def maxEventSequence : Option Nat → Option Nat → Option Nat
  | none, observed => observed
  | some current, none => some current
  | some current, some observed => some (max current observed)

namespace Connection

def new (activeSessionId : String) (deferSessionEvents : Bool) : Connection where
  activeSessionId := activeSessionId
  lastEventCursor := none
  retiredEventGenerations := []
  lastEventSequence := none
  childRosterSequence := none
  latestSnapshot := none
  latestSnapshotIsFresh := false
  latestSnapshotStateIsFresh := false
  deferredSessionEvents := []
  deferSessionEvents := deferSessionEvents
  deferredSessionEventsOverflowed := false
  sessionRevision := 0
  attachedSessionId := none
  attachedSessionFile := none
  closed := false
  log := []

def emit (c : Connection) (event : AgentConnectionEvent) (cursor : Option DaemonEventCursor) : Connection :=
  { c with log := c.log ++ [Happening.emitted event cursor] }

/-! ### Cursors -/

def isStaleSequencedMessage (c : Connection) (stamp : DaemonEventMeta) : Bool :=
  match stamp.cursor? with
  | some cursor =>
    decide (cursor.generation ∈ c.retiredEventGenerations) ||
      c.lastEventCursor.any fun last => last.generation == cursor.generation && decide (cursor.sequence ≤ last.sequence)
  | none =>
    match stamp.sequence?, c.lastEventSequence with
    | some sequence, some last => decide (sequence ≤ last)
    | _, _ => false

def observeEventCursor (c : Connection) (cursor : DaemonEventCursor) : Connection :=
  match c.lastEventCursor with
  | none => { c with lastEventSequence := some cursor.sequence, lastEventCursor := some cursor }
  | some current =>
    if current.generation ≠ cursor.generation then
      { c with
        lastEventSequence := some cursor.sequence
        retiredEventGenerations := c.retiredEventGenerations.insert current.generation
        lastEventCursor := some cursor
        log := c.log ++ [Happening.retired current.generation] }
    else if current.sequence < cursor.sequence then { c with lastEventCursor := some cursor }
    else c

def observeDaemonEventSequence (c : Connection) (stamp : DaemonEventMeta) : Connection :=
  match stamp with
  | .cursor cursor =>
    let c := c.observeEventCursor cursor
    { c with lastEventSequence := some cursor.sequence, log := c.log ++ [Happening.taken cursor] }
  | .sequenced sequence =>
    { c with
      lastEventSequence := maxEventSequence c.lastEventSequence (some sequence)
      lastEventCursor := c.lastEventCursor.map fun last => { last with sequence := max last.sequence sequence } }
  | .absent => c

/-! ### Snapshots -/

/-- A snapshot of this sequence has everything up to `last`. -/
def includes : Option Nat → Option Nat → Bool
  | some sequence, some last => decide (last ≤ sequence)
  | _, _ => false

/-- A deferred event of this sequence is newer than a snapshot. -/
def outlives : Option Nat → Option Nat → Bool
  | some sequence, some through => decide (through < sequence)
  | none, none => true
  | _, _ => false

def dropDeferredSessionEventsThrough (c : Connection) (snapshotSequence : Option Nat)
    (snapshotCursor : Option DaemonEventCursor) : Connection :=
  { c with
    deferredSessionEventsOverflowed :=
      if snapshotCursor.map DaemonEventCursor.generation ≠ c.lastEventCursor.map DaemonEventCursor.generation ∨
          includes snapshotSequence c.lastEventSequence then false
      else c.deferredSessionEventsOverflowed
    deferredSessionEvents := c.deferredSessionEvents.filter fun entry =>
      entry.generation == snapshotCursor.map DaemonEventCursor.generation &&
        outlives entry.sequence snapshotSequence }

def mapDaemonSessionSnapshot (snapshot : DaemonSessionSnapshot) : AgentConnectionSnapshot where
  state := snapshot.state
  messages := snapshot.messages
  streamingMessage := snapshot.streamingMessage
  children := snapshot.children
  lastEventSequence := some snapshot.lastEventSequence
  lastEventCursor := snapshot.lastEventCursor

/-- The cursors that a snapshot moves. -/
def observeSnapshot (c : Connection) (snapshot : DaemonSessionSnapshot) : Connection :=
  match snapshot.lastEventCursor with
  | some cursor =>
    let c := c.observeEventCursor cursor
    { c with
      lastEventSequence := maxEventSequence c.lastEventSequence (some snapshot.lastEventSequence)
      log := c.log ++ [Happening.snapshot cursor] }
  | none =>
    { c with lastEventSequence := maxEventSequence c.lastEventSequence (some snapshot.lastEventSequence) }

def applySessionSnapshot (c : Connection) (snapshot : DaemonSessionSnapshot) : Connection :=
  let c := (c.dropDeferredSessionEventsThrough
    (some snapshot.lastEventSequence) snapshot.lastEventCursor).observeSnapshot
    snapshot
  { c with
    attachedSessionId := some snapshot.state.sessionId
    attachedSessionFile := snapshot.state.sessionFile
    latestSnapshot := some
      { mapDaemonSessionSnapshot snapshot with
        lastEventSequence := c.lastEventSequence
        lastEventCursor := c.lastEventCursor }
    childRosterSequence := snapshot.children.map fun _ => snapshot.lastEventSequence
    latestSnapshotIsFresh := true
    latestSnapshotStateIsFresh := true }

/-! ### Events -/

def observeStreamingMessage (event : AgentSessionEvent) (snapshot : AgentConnectionSnapshot) :
    AgentConnectionSnapshot :=
  match event with
  | .messageStart message | .messageUpdate message =>
    if message.role = .assistant then { snapshot with streamingMessage := some message } else snapshot
  | .messageEnd message =>
    if message.role = .assistant then { snapshot with streamingMessage := none } else snapshot
  | .agentEnd => { snapshot with streamingMessage := none }
  | _ => snapshot

def observeRlmChildUpdate (child : RlmChild) (snapshot : AgentConnectionSnapshot) : AgentConnectionSnapshot :=
  let children := snapshot.children.getD []
  { snapshot with
    children := some
      (match children.findIdx? fun candidate => candidate.id == child.id with
      | some index => children.set index child
      | none => children ++ [child]) }

def withRecap (recap : Option String) (snapshot : AgentConnectionSnapshot) : AgentConnectionSnapshot :=
  { snapshot with state := { snapshot.state with recap } }

/-- A session event reaches the cached snapshot and the listeners. -/
def handOn (c : Connection) (event : AgentSessionEvent) (sequence : Option Nat)
    (cursor : Option DaemonEventCursor) : Connection :=
  let latestSnapshot := c.latestSnapshot.map (observeStreamingMessage event)
  match event with
  | .rlmChildUpdate child =>
    { c with
      latestSnapshot := latestSnapshot.map (observeRlmChildUpdate child)
      childRosterSequence := maxEventSequence c.childRosterSequence sequence
      latestSnapshotIsFresh := false }.emit (.sessionEvent event) cursor
  | _ => { c with latestSnapshot, latestSnapshotIsFresh := false }.emit (.sessionEvent event) cursor

def receiveSessionEvent (c : Connection) (stamp : DaemonEventMeta) (event : AgentSessionEvent) : Connection :=
  if c.deferSessionEvents then
    if c.deferredSessionEventsOverflowed then c
    else if maxDeferredSessionEvents ≤ c.deferredSessionEvents.length then
      { c with deferredSessionEvents := [], deferredSessionEventsOverflowed := true }
    else
      { c with
        deferredSessionEvents := c.deferredSessionEvents ++
          [{ event, sequence := stamp.sequence?, generation := stamp.cursor?.map DaemonEventCursor.generation }] }
  else c.handOn event stamp.sequence? stamp.cursor?

/-- `completeSnapshotAssembly`, once all chunks are there. -/
def completeSnapshotAssembly (c : Connection) (purpose : Purpose) (snapshot : DaemonSessionSnapshot) :
    Connection :=
  match purpose with
  | .attach revision => if revision = some c.sessionRevision then c.applySessionSnapshot snapshot else c
  | .replacement => (c.applySessionSnapshot snapshot).emit (.sessionReplaced snapshot.state snapshot.messages) none
  | .resync =>
    let c := c.applySessionSnapshot snapshot
    c.emit (.sessionResynced c.latestSnapshot) none

/-- A message that is not stale, after its cursor was observed. -/
def receive (c : Connection) (stamp : DaemonEventMeta) (body : Body) : Connection :=
  match body with
  | .sessionEvent event => c.receiveSessionEvent stamp event
  | .sideQuestionEvent event => c.emit (.sideQuestionEvent event) stamp.cursor?
  | .sessionStatus recap =>
    { c with latestSnapshot := c.latestSnapshot.map (withRecap recap) }.emit (.sessionStatus recap) stamp.cursor?
  | .sessionResynced snapshot =>
    let c := c.applySessionSnapshot snapshot
    c.emit (.sessionResynced c.latestSnapshot) stamp.cursor?
  | .sessionReplaced state messages snapshotFollows =>
    let c : Connection := { c with
        sessionRevision := c.sessionRevision + 1
        attachedSessionId := some state.sessionId
        attachedSessionFile := state.sessionFile
        deferredSessionEvents := []
        deferredSessionEventsOverflowed := false }
    if snapshotFollows then { c with latestSnapshotIsFresh := false }
    else
      { c with
        latestSnapshot := some
          { state, messages, streamingMessage := none, children := none
            lastEventSequence := c.lastEventSequence, lastEventCursor := c.lastEventCursor }
        childRosterSequence := none
        latestSnapshotIsFresh := true }.emit (.sessionReplaced state messages) stamp.cursor?
  | .extensionError error => c.emit (.extensionError error) stamp.cursor?
  | .sessionClosed update => if update then c else { c with closed := true }.emit .closed stamp.cursor?
  | .extensionUiRequest _ | .sessionSnapshotEnd _ _ => c

def handleDaemonMessage (c : Connection) (message : DaemonOutbound) : Connection :=
  if c.closed ∨ message.activeSessionId ≠ c.activeSessionId then c
  else
    match message.body with
    | .extensionUiRequest id =>
      if message.stamp.cursor?.any fun cursor => decide (cursor.generation ∈ c.retiredEventGenerations) then c
      else c.emit (.extensionUiRequest id) message.stamp.cursor?
    | .sessionSnapshotEnd purpose snapshot => c.completeSnapshotAssembly purpose snapshot
    | body =>
      if c.isStaleSequencedMessage message.stamp then c
      else (c.observeDaemonEventSequence message.stamp).receive message.stamp body

/-! ### Attaching and the end of deferral -/

/-- The cursor of the reply itself. -/
def observeAttachCursor (c : Connection) (result : DaemonAttachResult) : Connection :=
  match result.lastEventCursor with
  | some cursor =>
    let c := c.observeEventCursor cursor
    { c with lastEventSequence := maxEventSequence c.lastEventSequence (some result.lastEventSequence) }
  | none => { c with lastEventSequence := maxEventSequence c.lastEventSequence (some result.lastEventSequence) }

/-- The reply to an attach of a revision: a summary alone, or a snapshot in one piece. -/
def attached (c : Connection) (revision : Nat) (activeSessionId : String) (result : Option DaemonAttachResult) :
    Connection :=
  if c.closed ∨ revision ≠ c.sessionRevision then c
  else
    match result with
    | none => { c with activeSessionId, latestSnapshot := none, latestSnapshotIsFresh := false }
    | some result => ({ c with activeSessionId }.observeAttachCursor result).applySessionSnapshot result.snapshot

def stopDeferringSessionEvents (c : Connection) : Connection :=
  { c with deferSessionEvents := false, deferredSessionEvents := [], deferredSessionEventsOverflowed := false }

def Deferred.cursor? (d : Deferred) : Option DaemonEventCursor :=
  match d.generation, d.sequence with
  | some generation, some sequence => some ⟨generation, sequence⟩
  | _, _ => none

def handOnAll (c : Connection) : List Deferred → Connection
  | [] => c
  | d :: rest => (c.handOn d.event d.sequence (Deferred.cursor? d)).handOnAll rest

/-- One turn of the loop of `flushBufferedSessionEvents`: after an overflow it asks for a new attach, else it
hands on everything and ends the deferral. -/
def flushBufferedSessionEvents (c : Connection) : Connection :=
  if c.deferSessionEvents = false then c
  else if c.closed then c.stopDeferringSessionEvents
  else if c.deferredSessionEventsOverflowed then { c with deferredSessionEventsOverflowed := false }
  else (c.handOnAll c.deferredSessionEvents).stopDeferringSessionEvents

end Connection
end AgentConnection
end RePrime
