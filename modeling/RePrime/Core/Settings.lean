import RePrime.Lib.JsonRoundTrip
import RePrime.Lib.OrderedMap

/-!
# RePrime.Core.Settings

`SettingsManager` (`settings-manager.ts`): settings of two scopes in memory, the fields that were modified since
they were last written, and a queue of writes that merge those fields into the scope's file.

* `migrateSettings`: the old formats that a read replaces.
* `Setter`: the setters, each as the edits that it makes (`Setter.edits`).
* `persistScopedSettings`: what a queued write makes of the file.
* `step`: setters, queued writes and reloads, and what other managers do to the files.

`flush` waits for the queue and changes nothing. `withLock` reads and replaces a file under its lock, and repeats a
first read that ran without one, so what others do to the file happens between two writes. A setting that is
`undefined` in memory is absent here.
-/

namespace RePrime
namespace Core
namespace Settings

open Json (Value)

inductive Scope where
  | global | project
deriving DecidableEq, Repr

abbrev SettingsMap := OrderedMap String Value

/-- What a spread `{ ...v }` copies. -/
def members : Value → OrderedMap String Value
  | .object fields => .ofList fields
  | .array items => .ofList (items.zipIdx.map fun p => (toString p.2, p.1))
  | .string s => .ofList (s.toList.zipIdx.map fun p => (toString p.2, .string (String.singleton p.1)))
  | _ => .empty

def ofMembers (m : OrderedMap String Value) : Value := .object m.entries

/-- `typeof v === "object" && v !== null`. -/
def isObject : Value → Bool
  | .object _ => true
  | .array _ => true
  | _ => false

def isZero (n : Json.Number) : Bool :=
  (n.text.takeWhile fun c => c ≠ 'e' && c ≠ 'E').all fun c => c = '0' || c = '-' || c = '.'

def falsy : Value → Bool
  | .null => true
  | .bool b => !b
  | .number n => isZero n
  | .string s => s = ""
  | _ => false

/-! ### Migration -/

def migrateQueueMode (s : SettingsMap) : SettingsMap :=
  match s.get? "queueMode" with
  | some mode => if s.has "steeringMode" then s else (s.set "steeringMode" mode).delete "queueMode"
  | none => s

def migrateWebsockets (s : SettingsMap) : SettingsMap :=
  match s.get? "websockets" with
  | some (.bool b) =>
    if s.has "transport" then s
    else (s.set "transport" (.string (if b then "websocket" else "sse"))).delete "websockets"
  | _ => s

/-- `enableSkillCommands` of an object under `skills`, when the settings have none. -/
def liftSkillCommands (skills : OrderedMap String Value) (s : SettingsMap) : SettingsMap :=
  match skills.get? "enableSkillCommands" with
  | some enabled => if s.has "enableSkillCommands" then s else s.set "enableSkillCommands" enabled
  | none => s

def migrateSkills (s : SettingsMap) : SettingsMap :=
  match s.get? "skills" with
  | some (.object fields) =>
    match (members (.object fields)).get? "customDirectories" with
    | some (.array (dir :: dirs)) => (liftSkillCommands (.ofList fields) s).set "skills" (.array (dir :: dirs))
    | _ => (liftSkillCommands (.ofList fields) s).delete "skills"
  | _ => s

/-- `maxDelayMs` of `retry` becomes `provider.maxRetryDelayMs`. -/
def migrateRetryFields (retry : OrderedMap String Value) : OrderedMap String Value :=
  let provider := ((retry.get? "provider").filter isObject).map members
  match retry.get? "maxDelayMs", provider.bind (·.get? "maxRetryDelayMs") with
  | some (.number n), none | some (.number n), some .null =>
    (retry.set "provider" (ofMembers ((provider.getD .empty).set "maxRetryDelayMs" (.number n)))).delete "maxDelayMs"
  | _, _ => retry.delete "maxDelayMs"

def migrateRetry (s : SettingsMap) : SettingsMap :=
  match s.get? "retry" with
  | some (.object fields) => s.set "retry" (ofMembers (migrateRetryFields (.ofList fields)))
  | _ => s

def migrateTelemetry (s : SettingsMap) : SettingsMap :=
  match s.get? "telemetry" with
  | some (.bool b) => s.set "telemetry" (.object [("enabled", .bool b)])
  | some (.object _) | none => s
  | some _ => s.delete "telemetry"

def migrateMarkdown (s : SettingsMap) : SettingsMap :=
  match s.get? "markdown" with
  | some (.object _) | none => s
  | some _ => s.delete "markdown"

def migrateSettings (s : SettingsMap) : SettingsMap :=
  migrateMarkdown (migrateTelemetry (migrateRetry (migrateSkills (migrateWebsockets (migrateQueueMode s)))))

/-- A settings file: settings, or a text that does not parse to an object. -/
inductive FileContent where
  | settings (s : SettingsMap)
  | unreadable

/-- `loadFromStorage`, `none` when it throws. -/
def load : Option FileContent → Option SettingsMap
  | none => some .empty
  | some (.settings s) => some (migrateSettings s)
  | some .unreadable => none

/-- `deepMergeSettings`. -/
def deepMergeSettings (base overrides : SettingsMap) : SettingsMap :=
  overrides.entries.foldl (fun result p =>
    match p.2, base.get? p.1 with
    | .object fields, some (.object baseFields) =>
      result.set p.1 (.object (fields.foldl (fun m q => OrderedMap.set m q.1 q.2) (.ofList baseFields)).entries)
    | value, _ => result.set p.1 value) base

/-! ### Setters -/

/-- A field of the settings, or a member of one. -/
abbrev Key := String × Option String

def lookup (s : SettingsMap) : Key → Option Value
  | (field, none) => s.get? field
  | (field, some key) => (s.get? field).bind fun v => (members v).get? key

/-- The value of a key in a file. -/
def fileValue (file : Option FileContent) (k : Key) : Option Value :=
  match file with
  | some (.settings s) => lookup s k
  | _ => none

/-- What a setter does to a field that has no object yet before it assigns a member. -/
inductive Creation where
  /-- `if (!settings.field) settings.field = {}`. -/
  | falsy
  /-- `getOrCreateGlobalTelemetrySettings`. -/
  | nonObject
  /-- `settings.field ??= {}`. -/
  | nullish
deriving DecidableEq

/-- The object whose member is assigned, `none` when the assignment throws because it is a primitive. An array
counts as the object of its items. -/
def Creation.target : Creation → Option Value → Option (OrderedMap String Value)
  | _, none => some .empty
  | .nonObject, some (.object fields) => some (.ofList fields)
  | .nonObject, some _ => some .empty
  | .falsy, some v => if Settings.falsy v then some .empty else if isObject v then some (members v) else none
  | .nullish, some .null => some .empty
  | .nullish, some v => if isObject v then some (members v) else none

inductive Edit where
  | whole (field : String) (value : Option Value)
  | nested (creation : Creation) (field key : String) (value : Value)
  /-- `settings.field = { ...(settings.field ?? {}), [key]: value }`, or a copy without the key. -/
  | spread (field key : String) (value : Option Value)

def Edit.key : Edit → Key
  | whole field _ => (field, none)
  | nested _ field key _ => (field, some key)
  | spread field key _ => (field, some key)

def Edit.value : Edit → Option Value
  | whole _ value => value
  | nested _ _ _ value => some value
  | spread _ _ value => value

def Edit.apply (memory : SettingsMap) : Edit → Option SettingsMap
  | whole field value => some (memory.put field value)
  | nested creation field key value =>
    (creation.target (memory.get? field)).map fun m => memory.set field (ofMembers (m.set key value))
  | spread field key value =>
    some (memory.set field (ofMembers ((members ((memory.get? field).getD .null)).put key value)))

/-- The setters. A text that the source limits to a few words is any text here, and a number that it rounds is
the rounded one. -/
inductive Setter where
  | setOnboardingShown (shown : Bool)
  | setDefaultProvider (provider : String)
  | setDefaultModel (modelId : String)
  | setDefaultModelAndProvider (provider modelId : String)
  | setSteeringMode (mode : String)
  | setFollowUpMode (mode : String)
  | setTheme (theme : String)
  | setUpdateChannel (channel : String)
  | setDefaultThinkingLevel (level : String)
  | setDefaultServiceTier (serviceTier : String)
  | setRlmMaxDepth (maxDepth : Json.Number)
  /-- `none` is `"off"`. -/
  | setIdleEvictionMinutes (value : Option Json.Number)
  | setTransport (transport : String)
  | setCompactionEnabled (enabled : Bool)
  | setAgentTracesEnabled (enabled : Bool)
  | setTelemetryEnabled (enabled : Bool)
  | setTelemetryNoticeShown (shown : Bool)
  | setRetryEnabled (enabled : Bool)
  | setShellPath (path : Option String)
  | setQuietStartup (quiet : Bool)
  | setShellCommandPrefix (text : Option String)
  | setNpmCommand (command : Option (List String))
  | setPackages (packages : List Value)
  | setProjectPackages (packages : List Value)
  | setExtensionPaths (paths : List String)
  | setProjectExtensionPaths (paths : List String)
  | setSkillPaths (paths : List String)
  | setProjectSkillPaths (paths : List String)
  | setPromptTemplatePaths (paths : List String)
  | setProjectPromptTemplatePaths (paths : List String)
  | setThemePaths (paths : List String)
  | setProjectThemePaths (paths : List String)
  | setEnableSkillCommands (enabled : Bool)
  | setEnableBuiltinSkills (enabled : Bool)
  | setShowImages (shown : Bool)
  | setClearOnShrink (enabled : Bool)
  | setFullscreen (enabled : Bool)
  | setFullscreenMouse (enabled : Bool)
  | setShowTerminalProgress (enabled : Bool)
  | setImageAutoResize (enabled : Bool)
  | setBlockImages (blocked : Bool)
  | setGlobalMcpServer (name : String) (config : Value) (force : Bool)
  | removeGlobalMcpServer (name : String)
  | setEnabledModels (patterns : Option (List String))
  | setTreeFilterMode (mode : String)
  | setShowHardwareCursor (enabled : Bool)
  | setEditorPaddingX (padding : Int)
  | setAutocompleteMaxVisible (maxVisible : Int)
  | setMermaidRenderingMode (mode : String)
  | setWarnings (warnings : List (String × Value))

def strings (l : List String) : Value := .array (l.map .string)

def isText (s : String) : Value → Bool
  | .string t => t = s
  | _ => false

/-- `recordModelUseInternal`: the model in front of the recent ones of the merged settings. -/
def recentModels (settings : SettingsMap) (provider modelId : String) : Value :=
  let key := provider ++ "/" ++ modelId
  let recent := match settings.get? "recentModels" with
    | some (.array items) => items
    | _ => []
  .array ((.string key :: recent.filter fun v => !isText key v).take 20)

/-- `globalSettings.mcpServers?.[name]` is there. -/
def hasMcpServer (memory : SettingsMap) (name : String) : Bool :=
  match memory.get? "mcpServers" with
  | none | some .null => false
  | some servers =>
    match (members servers).get? name with
    | some v => !falsy v
    | none => decide (name = "__proto__" ∨ name ∈ OrderedMap.inheritedNames)

def Setter.scope : Setter → Scope
  | setProjectPackages _ | setProjectExtensionPaths _ | setProjectSkillPaths _
  | setProjectPromptTemplatePaths _ | setProjectThemePaths _ => .project
  | _ => .global

/-- The edits of a setter to the settings of its scope, none when it throws or returns before it edits. -/
def Setter.edits (memory settings : SettingsMap) : Setter → List Edit
  | setOnboardingShown shown => [.whole "onboardingShown" (some (.bool shown))]
  | setDefaultProvider provider => [.whole "defaultProvider" (some (.string provider))]
  | setDefaultModel modelId => [.whole "defaultModel" (some (.string modelId))]
  | setDefaultModelAndProvider provider modelId =>
    [.whole "defaultProvider" (some (.string provider)), .whole "defaultModel" (some (.string modelId)),
      .whole "recentModels" (some (recentModels settings provider modelId))]
  | setSteeringMode mode => [.whole "steeringMode" (some (.string mode))]
  | setFollowUpMode mode => [.whole "followUpMode" (some (.string mode))]
  | setTheme theme => [.whole "theme" (some (.string theme))]
  | setUpdateChannel channel => [.whole "updateChannel" (some (.string channel))]
  | setDefaultThinkingLevel level => [.whole "defaultThinkingLevel" (some (.string level))]
  | setDefaultServiceTier serviceTier => [.whole "defaultServiceTier" (some (.string serviceTier))]
  | setRlmMaxDepth maxDepth => [.whole "rlmMaxDepth" (some (.number maxDepth))]
  | setIdleEvictionMinutes none => [.whole "idleEvictionMinutes" (some (.string "off"))]
  | setIdleEvictionMinutes (some n) =>
    if isZero n || n.text.head? = some '-' then [] else [.whole "idleEvictionMinutes" (some (.number n))]
  | setTransport transport => [.whole "transport" (some (.string transport))]
  | setCompactionEnabled enabled => [.nested .falsy "compaction" "enabled" (.bool enabled)]
  | setAgentTracesEnabled enabled => [.nested .falsy "agentTraces" "enabled" (.bool enabled)]
  | setTelemetryEnabled enabled => [.nested .nonObject "telemetry" "enabled" (.bool enabled)]
  | setTelemetryNoticeShown shown => [.nested .nonObject "telemetry" "noticeShown" (.bool shown)]
  | setRetryEnabled enabled => [.nested .falsy "retry" "enabled" (.bool enabled)]
  | setShellPath path => [.whole "shellPath" (path.map .string)]
  | setQuietStartup quiet => [.whole "quietStartup" (some (.bool quiet))]
  | setShellCommandPrefix text => [.whole "shellCommandPrefix" (text.map .string)]
  | setNpmCommand command => [.whole "npmCommand" (command.map strings)]
  | setPackages packages => [.whole "packages" (some (.array packages))]
  | setProjectPackages packages => [.whole "packages" (some (.array packages))]
  | setExtensionPaths paths => [.whole "extensions" (some (strings paths))]
  | setProjectExtensionPaths paths => [.whole "extensions" (some (strings paths))]
  | setSkillPaths paths => [.whole "skills" (some (strings paths))]
  | setProjectSkillPaths paths => [.whole "skills" (some (strings paths))]
  | setPromptTemplatePaths paths => [.whole "prompts" (some (strings paths))]
  | setProjectPromptTemplatePaths paths => [.whole "prompts" (some (strings paths))]
  | setThemePaths paths => [.whole "themes" (some (strings paths))]
  | setProjectThemePaths paths => [.whole "themes" (some (strings paths))]
  | setEnableSkillCommands enabled => [.whole "enableSkillCommands" (some (.bool enabled))]
  | setEnableBuiltinSkills enabled => [.whole "enableBuiltinSkills" (some (.bool enabled))]
  | setShowImages shown => [.nested .falsy "terminal" "showImages" (.bool shown)]
  | setClearOnShrink enabled => [.nested .falsy "terminal" "clearOnShrink" (.bool enabled)]
  | setFullscreen enabled => [.nested .falsy "terminal" "fullscreen" (.bool enabled)]
  | setFullscreenMouse enabled => [.nested .falsy "terminal" "fullscreenMouse" (.bool enabled)]
  | setShowTerminalProgress enabled => [.nested .falsy "terminal" "showTerminalProgress" (.bool enabled)]
  | setImageAutoResize enabled => [.nested .falsy "images" "autoResize" (.bool enabled)]
  | setBlockImages blocked => [.nested .falsy "images" "blockImages" (.bool blocked)]
  | setGlobalMcpServer name config force =>
    if hasMcpServer memory name && !force then [] else [.spread "mcpServers" name (some config)]
  | removeGlobalMcpServer name => if hasMcpServer memory name then [.spread "mcpServers" name none] else []
  | setEnabledModels patterns => [.whole "enabledModels" (patterns.map strings)]
  | setTreeFilterMode mode => [.whole "treeFilterMode" (some (.string mode))]
  | setShowHardwareCursor enabled => [.whole "showHardwareCursor" (some (.bool enabled))]
  | setEditorPaddingX padding => [.whole "editorPaddingX" (some (.int (max 0 (min 3 padding))))]
  | setAutocompleteMaxVisible maxVisible =>
    [.whole "autocompleteMaxVisible" (some (.int (max 3 (min 20 maxVisible))))]
  | setMermaidRenderingMode mode => [.nested .nullish "markdown" "mermaid" (.string mode)]
  | setWarnings warnings => [.whole "warnings" (some (.object warnings))]

/-! ### Queued writes -/

/-- `modifiedFields` and `modifiedNestedFields`, the latter as its pairs. -/
structure Marks where
  fields : List String
  nested : List (String × String)
deriving DecidableEq

def Marks.empty : Marks := ⟨[], []⟩

/-- `markModified`. An empty nested key is none. -/
def Marks.markModified (marks : Marks) : Key → Marks
  | (field, none) => { marks with fields := marks.fields ++ [field] }
  | (field, some key) =>
    { fields := marks.fields ++ [field]
      nested := if key = "" then marks.nested else marks.nested ++ [(field, key)] }

/-- A queued write with its own copies of the settings and of the marks. -/
structure Task where
  scope : Scope
  snapshot : SettingsMap
  marks : Marks

/-- The keys of a field that are marked. -/
def Marks.nestedKeys (marks : Marks) (field : String) : List String :=
  (marks.nested.filter (·.1 = field)).map (·.2)

/-- The value that the write gives a marked field. Assigning the member `__proto__` makes no member. -/
def Task.fieldValue (task : Task) (base : SettingsMap) (field : String) : Option Value :=
  match task.snapshot.get? field with
  | some value =>
    if task.marks.nestedKeys field ≠ [] ∧ isObject value = true then
      some (ofMembers (((task.marks.nestedKeys field).filter (· ≠ "__proto__")).foldl
        (fun m key => m.put key ((members value).get? key)) (members ((base.get? field).getD .null))))
    else some value
  | none => none

/-- `persistScopedSettings`: what the write makes of the file, `none` when it throws. -/
def persistScopedSettings (current : Option FileContent) (task : Task) : Option SettingsMap :=
  (load current).map fun base =>
    task.marks.fields.foldl (fun merged field => merged.put field (task.fieldValue base field)) base

/-- How the last write of a scope that was run ended. -/
inductive LastWrite where
  | none
  | failed
  | saved (before : Option FileContent) (after : SettingsMap)

structure ScopeState where
  file : Option FileContent
  memory : SettingsMap
  loadError : Bool
  marks : Marks
  /-- Not in the source: the value of each key that the manager has set since it last called `reload` and that
  no other manager has changed since. -/
  latest : Key → Option (Option Value)
  /-- Not in the source: every key that the manager has ever set. -/
  touched : List Key
  /-- Not in the source. -/
  lastWrite : LastWrite

inductive Item where
  | write (task : Task)
  /-- A `reload` that waits for the writes before it. -/
  | reload

structure State where
  scopes : Scope → ScopeState
  /-- The merged settings. -/
  settings : SettingsMap
  queue : List Item
  /-- The scopes of the recorded errors. -/
  errors : List Scope

namespace State

variable (σ : State)

def setScope (scope : Scope) (s : ScopeState) : State :=
  { σ with scopes := fun i => if i = scope then s else σ.scopes i }

def merge : State :=
  { σ with settings := deepMergeSettings (σ.scopes .global).memory (σ.scopes .project).memory }

def recordError (scope : Scope) : State := { σ with errors := σ.errors ++ [scope] }

end State

/-- A manager that is created beside files. -/
def init (files : Scope → Option FileContent) : State :=
  let scopes scope : ScopeState :=
    { file := files scope
      memory := (load (files scope)).getD .empty
      loadError := (load (files scope)).isNone
      marks := .empty
      latest := fun _ => none
      touched := []
      lastWrite := .none }
  { scopes := scopes
    settings := deepMergeSettings (scopes .global).memory (scopes .project).memory
    queue := []
    errors := ([Scope.global, .project].filter fun scope => (scopes scope).loadError) }

/-- The edits, their marks and what is known of them. -/
def ScopeState.edit (s : ScopeState) (memory : SettingsMap) (edits : List Edit) : ScopeState :=
  { s with
    memory := memory
    marks := edits.foldl (fun marks e => marks.markModified e.key) s.marks
    touched := s.touched ++ edits.map Edit.key }

def ScopeState.record (s : ScopeState) (edits : List Edit) : ScopeState :=
  { s with latest := edits.foldl (fun latest e k => if k = e.key then some e.value else latest k) s.latest }

/-- `save` and `saveProjectSettings`: with a load error nothing is written. -/
def State.save (σ : State) (scope : Scope) (edits : List Edit) : State :=
  let s := σ.scopes scope
  if s.loadError then σ.merge.recordError scope
  else
    { (σ.setScope scope (s.record edits)).merge with
      queue := σ.queue ++ [Item.write ⟨scope, s.memory, s.marks⟩] }

def State.set (σ : State) (setter : Setter) : State :=
  let s := σ.scopes setter.scope
  let edits := setter.edits s.memory σ.settings
  match edits.foldlM Edit.apply s.memory with
  | none => σ
  | some memory =>
    if edits.isEmpty then σ else (σ.setScope setter.scope (s.edit memory edits)).save setter.scope edits

/-- A load of `reload`: the settings in memory stay when it fails. -/
def ScopeState.reload (s : ScopeState) (reads : Bool) : ScopeState :=
  match reads, load s.file with
  | true, some settings => { s with memory := settings, loadError := false, marks := .empty }
  | _, _ => { s with loadError := true, marks := .empty }

/-- What another manager, or anyone, makes of the file. -/
def ScopeState.overwrite (s : ScopeState) (content : Option FileContent) : ScopeState :=
  { s with
    file := content
    latest := fun k => if fileValue content k = fileValue s.file k then s.latest k else none }

/-- The next write succeeds: the file is replaced and all marks of the scope are cleared. -/
def State.written (σ : State) (task : Task) (after : SettingsMap) (queue : List Item) : State :=
  let s := σ.scopes task.scope
  { σ.setScope task.scope
      { s with
        file := some (.settings after)
        marks := .empty
        lastWrite := .saved s.file after } with queue := queue }

/-- The next write throws. -/
def State.unwritten (σ : State) (task : Task) (queue : List Item) : State :=
  { (σ.setScope task.scope { σ.scopes task.scope with lastWrite := .failed }).recordError task.scope with
    queue := queue }

/-- The load of a scope by `reload`, with its error recorded. -/
def State.reloadScope (σ : State) (scope : Scope) (reads : Bool) : State :=
  let s := (σ.scopes scope).reload reads
  if s.loadError then (σ.setScope scope s).recordError scope else σ.setScope scope s

inductive Action where
  | set (setter : Setter)
  /-- `applyOverrides`. -/
  | override (overrides : SettingsMap)
  /-- `reload` is called. It waits for the writes that are queued. -/
  | callReload
  /-- The next item of the queue is a write, and it succeeds or fails. -/
  | write
  | fail
  /-- The next item is a reload, and it reads the two files or fails to. -/
  | reload (reads : Scope → Bool)
  /-- Somebody else leaves this in the file of a scope. -/
  | other (scope : Scope) (content : Option FileContent)

def step (σ : State) : Action → Option State
  | .set setter => some (σ.set setter)
  | .override overrides => some { σ with settings := deepMergeSettings σ.settings overrides }
  | .callReload =>
    some { σ with
      scopes := fun scope => { σ.scopes scope with latest := fun _ => none }
      queue := σ.queue ++ [Item.reload] }
  | .write =>
    match σ.queue with
    | .write task :: queue =>
      (persistScopedSettings (σ.scopes task.scope).file task).map fun after => σ.written task after queue
    | _ => none
  | .fail =>
    match σ.queue with
    | .write task :: queue => some (σ.unwritten task queue)
    | _ => none
  | .reload reads =>
    match σ.queue with
    | .reload :: queue =>
      some (State.merge { (σ.reloadScope .global (reads .global)).reloadScope .project (reads .project) with
        queue := queue })
    | _ => none
  | .other scope content => some (σ.setScope scope ((σ.scopes scope).overwrite content))

end Settings
end Core
end RePrime
