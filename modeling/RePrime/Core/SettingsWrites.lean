import RePrime.Core.Settings
import RePrime.Lib.Runs

/-!
# RePrime.Core.SettingsWrites

What a settings file holds when the queue of writes is drained.

* `lookup_migrateSettings`: migration leaves alone what a setter has written.
* `lookup_persist_of_mem`, `lookup_persist_of_disjoint`: a queued write puts the marked keys of its copy into the
  file and leaves the others as the migrated file has them.
* `ScopeState.Inv`: where the value of each key that was set waits: in the last queued write that marks it, among
  the marks, or in the file.
* `State.kept_of_run`: in every run where a failing write leaves its keys marked or to a later write.
-/

namespace RePrime
namespace Core
namespace Settings

open Option hiding mem_map map_map
open OrderedMap
open List
open Json (Value)

variable {s : SettingsMap} {f key : String} {k k' : Key} {v : Option Value}

/-! ### Migration and the keys that setters write -/

theorem get?_members_ofMembers (m : OrderedMap String Value) (key : String) :
    (members (ofMembers m)).get? key = m.get? key := get?_ofList_entries m key

theorem get?_migrateQueueMode (h : f ≠ "queueMode") (h' : f = "steeringMode" → s.has f = true) :
    (migrateQueueMode s).get? f = s.get? f := by
  unfold migrateQueueMode
  split
  · split
    · rfl
    · rename_i hhas
      have hf : f ≠ "steeringMode" := by
        rintro rfl
        exact hhas (h' rfl)
      rw [get?_delete, if_neg h, get?_set, if_neg hf]
  · rfl

theorem get?_migrateWebsockets (h : f ≠ "websockets") (h' : f = "transport" → s.has f = true) :
    (migrateWebsockets s).get? f = s.get? f := by
  unfold migrateWebsockets
  split
  · split
    · rfl
    · rename_i hhas
      have hf : f ≠ "transport" := by
        rintro rfl
        exact hhas (h' rfl)
      rw [get?_delete, if_neg h, get?_set, if_neg hf]
  · rfl

theorem get?_liftSkillCommands {skills : OrderedMap String Value}
    (h : f = "enableSkillCommands" → s.has f = true) : (liftSkillCommands skills s).get? f = s.get? f := by
  unfold liftSkillCommands
  split
  · split
    · rfl
    · rename_i hhas
      have hf : f ≠ "enableSkillCommands" := by
        rintro rfl
        exact hhas (h rfl)
      rw [get?_set, if_neg hf]
  · rfl

theorem get?_migrateSkills (h : f = "enableSkillCommands" → s.has f = true)
    (h' : f = "skills" → ∃ items, s.get? f = some (.array items)) : (migrateSkills s).get? f = s.get? f := by
  unfold migrateSkills
  split
  · rename_i fields hs
    have hf : f ≠ "skills" := by
      rintro rfl
      obtain ⟨items, hi⟩ := h' rfl
      rw [hs] at hi
      cases hi
    split
    · rw [get?_set, if_neg hf, get?_liftSkillCommands h]
    · rw [get?_delete, if_neg hf, get?_liftSkillCommands h]
  · rfl

theorem get?_migrateRetry (h : f ≠ "retry") : (migrateRetry s).get? f = s.get? f := by
  unfold migrateRetry
  split
  · rw [get?_set, if_neg h]
  · rfl

theorem get?_migrateTelemetry (h : f = "telemetry" → ∃ fields, s.get? f = some (.object fields)) :
    (migrateTelemetry s).get? f = s.get? f := by
  unfold migrateTelemetry
  split
  · rename_i b hs
    have hf : f ≠ "telemetry" := by
      rintro rfl
      obtain ⟨fields, hi⟩ := h rfl
      rw [hs] at hi
      cases hi
    rw [get?_set, if_neg hf]
  · rfl
  · rfl
  · rename_i hno hs
    have hf : f ≠ "telemetry" := by
      rintro rfl
      obtain ⟨fields, hi⟩ := h rfl
      rw [hs] at hi
      exact hno fields (Option.some.inj hi)
    rw [get?_delete, if_neg hf]

theorem get?_migrateMarkdown (h : f = "markdown" → ∃ fields, s.get? f = some (.object fields)) :
    (migrateMarkdown s).get? f = s.get? f := by
  unfold migrateMarkdown
  split
  · rfl
  · rfl
  · rename_i hno hs
    have hf : f ≠ "markdown" := by
      rintro rfl
      obtain ⟨fields, hi⟩ := h rfl
      rw [hs] at hi
      exact hno fields (Option.some.inj hi)
    rw [get?_delete, if_neg hf]

variable {t : SettingsMap}

theorem has_congr {s : SettingsMap} (h : s.get? f = t.get? f) : s.has f = t.has f := by
  rw [Bool.eq_iff_iff, has_iff_get?, has_iff_get?, h]

/-- What keeps a field through every migration: it is no old name, it is there already, or it has its new
form. -/
structure Migrated (s : SettingsMap) (f : String) : Prop where
  queueMode : f ≠ "queueMode"
  websockets : f ≠ "websockets"
  steeringMode : f = "steeringMode" → s.has f = true
  transport : f = "transport" → s.has f = true
  enableSkillCommands : f = "enableSkillCommands" → s.has f = true
  skills : f = "skills" → ∃ items, s.get? f = some (.array items)
  telemetry : f = "telemetry" → ∃ fields, s.get? f = some (.object fields)
  markdown : f = "markdown" → ∃ fields, s.get? f = some (.object fields)

theorem get?_migrateSkills_of_migrated (h : Migrated s f) :
    (migrateSkills (migrateWebsockets (migrateQueueMode s))).get? f = s.get? f := by
  have h1 := get?_migrateQueueMode h.queueMode h.steeringMode
  have h2 : (migrateWebsockets (migrateQueueMode s)).get? f = s.get? f := by
    rw [get?_migrateWebsockets h.websockets fun hf => (has_congr h1).trans (h.transport hf), h1]
  rw [get?_migrateSkills (fun hf => (has_congr h2).trans (h.enableSkillCommands hf))
    (fun hf => by rw [h2]; exact h.skills hf), h2]

theorem get?_migrateForms (ht : t.get? f = s.get? f) (h : Migrated s f) :
    (migrateMarkdown (migrateTelemetry t)).get? f = s.get? f := by
  have h1 : (migrateTelemetry t).get? f = s.get? f := by
    rw [get?_migrateTelemetry (fun hf => by rw [ht]; exact h.telemetry hf), ht]
  rw [get?_migrateMarkdown (fun hf => by rw [h1]; exact h.markdown hf), h1]

theorem get?_migrateSettings (h : Migrated s f) (hr : f ≠ "retry") : (migrateSettings s).get? f = s.get? f :=
  get?_migrateForms ((get?_migrateRetry hr).trans (get?_migrateSkills_of_migrated h)) h

theorem get?_migrateRetryFields (retry : OrderedMap String Value) :
    (migrateRetryFields retry).get? "enabled" = retry.get? "enabled" := by
  have hne : "enabled" ≠ "maxDelayMs" := by decide
  have hne' : "enabled" ≠ "provider" := by decide
  unfold migrateRetryFields
  dsimp only
  split <;> simp only [get?_delete, get?_set, if_neg hne, if_neg hne']

theorem migrated_retry : Migrated s "retry" := by
  constructor <;> first | decide | exact fun h => absurd h (by decide)

theorem lookup_migrateRetry :
    lookup (migrateRetry t) ("retry", some "enabled") = lookup t ("retry", some "enabled") := by
  unfold migrateRetry lookup
  dsimp only
  split
  · rename_i fields ht
    rw [get?_set, if_pos rfl, ht]
    simp only [bind_some, get?_members_ofMembers, get?_migrateRetryFields]
    rfl
  · rfl

/-- Keys with values that migration leaves alone. -/
def Stable : Key → Option Value → Prop
  | (f, none), v =>
    f ∉ ["queueMode", "websockets", "retry", "telemetry", "markdown"] ∧
      (f ∈ ["steeringMode", "transport", "enableSkillCommands"] → v.isSome = true) ∧
      (f = "skills" → ∃ items, v = some (.array items))
  | (f, some key), v =>
    f ∉ ["queueMode", "websockets", "steeringMode", "transport", "enableSkillCommands", "skills"] ∧
      (f = "retry" → key = "enabled") ∧
      (f = "telemetry" ∨ f = "markdown" → v.isSome = true ∧ key ∈ ["enabled", "noticeShown", "mermaid"])

theorem toString_ne {n : Nat} (h : key ∈ ["enabled", "noticeShown", "mermaid"]) : toString n ≠ key := by
  intro he
  have hdigits : ∀ c ∈ key.toList, c.isDigit = true := by
    intro c hc
    rw [← he] at hc
    have hc : c ∈ Nat.toDigits 10 n := by simpa using hc
    exact Nat.isDigit_of_mem_toDigits (by decide) (by decide) hc
  simp only [mem_cons, not_mem_nil, or_false] at h
  rcases h with rfl | rfl | rfl
  · exact absurd (hdigits 'e' (by decide)) (by decide)
  · exact absurd (hdigits 'n' (by decide)) (by decide)
  · exact absurd (hdigits 'm' (by decide)) (by decide)

theorem eq_object_of_member {u w : Value} (hkey : key ∈ ["enabled", "noticeShown", "mermaid"])
    (h : (members u).get? key = some w) : ∃ fields, u = .object fields := by
  cases u with
  | object fields => exact ⟨fields, rfl⟩
  | array items =>
    have hm := mem_of_get?_ofList h
    obtain ⟨p, -, hp⟩ := mem_map.mp hm
    exact absurd (congrArg Prod.fst hp) (toString_ne hkey)
  | string t =>
    have hm := mem_of_get?_ofList h
    obtain ⟨p, -, hp⟩ := mem_map.mp hm
    exact absurd (congrArg Prod.fst hp) (toString_ne hkey)
  | _ => cases h

theorem lookup_congr {s : SettingsMap} (h : s.get? f = t.get? f) (o : Option String) :
    lookup s (f, o) = lookup t (f, o) := by
  cases o with
  | none => exact h
  | some key => simp only [lookup, h]

theorem lookup_migrateSettings (h : Stable k v) (hs : lookup s k = v) : lookup (migrateSettings s) k = v := by
  obtain ⟨f, o⟩ := k
  cases o with
  | none =>
    obtain ⟨hold, hsome, harray⟩ := h
    simp only [mem_cons, not_mem_nil, or_false, not_or] at hold
    have hhas : f ∈ ["steeringMode", "transport", "enableSkillCommands"] → s.has f = true := by
      intro hf
      obtain ⟨w, hw⟩ := isSome_iff_exists.mp (hsome hf)
      exact has_iff_get?.mpr ⟨w, hs.trans hw⟩
    have hm : Migrated s f := by
      refine ⟨hold.1, hold.2.1, ?_, ?_, ?_, ?_, fun hf => absurd hf hold.2.2.2.1, fun hf => absurd hf hold.2.2.2.2⟩
      · rintro rfl
        exact hhas (by decide)
      · rintro rfl
        exact hhas (by decide)
      · rintro rfl
        exact hhas (by decide)
      · intro hf
        obtain ⟨items, hi⟩ := harray hf
        exact ⟨items, hs.trans hi⟩
    exact (get?_migrateSettings hm hold.2.2.1).trans hs
  | some key =>
    obtain ⟨hold, hretry, hforms⟩ := h
    simp only [mem_cons, not_mem_nil, or_false, not_or] at hold
    obtain ⟨hqueue, hweb, hsteer, htransport, hcommands, hskills⟩ := hold
    by_cases hf : f = "retry"
    · subst hf
      rw [hretry rfl] at hs ⊢
      have hnt : ∀ t : SettingsMap, (migrateMarkdown (migrateTelemetry t)).get? "retry" = t.get? "retry" := by
        intro t
        rw [get?_migrateMarkdown fun hf => absurd hf (by decide),
          get?_migrateTelemetry fun hf => absurd hf (by decide)]
      rw [migrateSettings, lookup_congr (hnt _), lookup_migrateRetry,
        lookup_congr (get?_migrateSkills_of_migrated migrated_retry), hs]
    · have hobject : f = "telemetry" ∨ f = "markdown" → ∃ fields, s.get? f = some (.object fields) := by
        intro hform
        obtain ⟨hv, hkey⟩ := hforms hform
        obtain ⟨w, hw⟩ := isSome_iff_exists.mp hv
        obtain ⟨u, hu, hm⟩ := bind_eq_some_iff.mp (hs.trans hw)
        obtain ⟨fields, rfl⟩ := eq_object_of_member hkey hm
        exact ⟨fields, hu⟩
      have hm : Migrated s f :=
        ⟨hqueue, hweb, fun h => absurd h hsteer, fun h => absurd h htransport, fun h => absurd h hcommands,
          fun h => absurd h hskills, fun h => hobject (.inl h), fun h => hobject (.inr h)⟩
      rw [lookup_congr (get?_migrateSettings hm hf), hs]

/-! ### The setters -/

/-- The fields whose members are set one by one. -/
def nestedFields : List String :=
  ["compaction", "agentTraces", "telemetry", "retry", "terminal", "images", "markdown", "mcpServers"]

def Valid : Key → Prop
  | (f, none) => f ∉ nestedFields
  | (f, some key) => f ∈ nestedFields ∧ key ≠ "" ∧ key ≠ "__proto__"

structure Edit.Proper (e : Edit) : Prop where
  valid : Valid e.key
  stable : Stable e.key e.value

/-- The first letter of `NAME_PATTERN`, which the callers check an MCP server's name against. -/
def startsAlphanumeric (name : String) : Bool := name.toList.head?.any Char.isAlphanum

/-- A server's name is one that the callers let through. -/
def Setter.Named : Setter → Prop
  | setGlobalMcpServer name _ _ => startsAlphanumeric name = true
  | removeGlobalMcpServer name => startsAlphanumeric name = true
  | _ => True

theorem ne_of_startsAlphanumeric {name : String} (h : startsAlphanumeric name = true) :
    name ≠ "" ∧ name ≠ "__proto__" := by
  constructor
  · rintro rfl
    exact absurd h (by decide)
  · rintro rfl
    exact absurd h (by decide)

theorem proper_mcp {name : String} (h : startsAlphanumeric name = true) (value : Option Value) :
    Edit.Proper (.spread "mcpServers" name value) := by
  refine ⟨⟨by decide, ne_of_startsAlphanumeric h⟩, by simp, ?_, ?_⟩
  · intro hf
    exact absurd hf (by decide)
  · intro hf
    exact absurd hf (by decide)

theorem proper_whole (h : f ∉ nestedFields ++
    ["queueMode", "websockets", "steeringMode", "transport", "enableSkillCommands", "skills"]) (v : Option Value) :
    Edit.Proper (.whole f v) := by
  simp only [nestedFields, cons_append, nil_append, mem_cons, not_mem_nil, or_false, not_or] at h
  obtain ⟨hc, ha, ht, hr, hter, hi, hm, hmcp, hq, hw, hs, htr, hen, hsk⟩ := h
  refine ⟨?_, ?_, ?_, ?_⟩
  · simp [Edit.key, Valid, nestedFields, *]
  · simp [*]
  · intro hf
    simp [*] at hf
  · intro hf
    exact absurd hf hsk

theorem proper_present (h : f ∈ ["steeringMode", "transport", "enableSkillCommands"]) (w : Value) :
    Edit.Proper (.whole f (some w)) := by
  simp only [mem_cons, not_mem_nil, or_false] at h
  rcases h with rfl | rfl | rfl <;>
    exact ⟨show _ ∉ nestedFields by decide, by decide, fun _ => rfl, fun hf => absurd hf (by decide)⟩

theorem proper_skills (paths : List String) : Edit.Proper (.whole "skills" (some (strings paths))) :=
  ⟨show _ ∉ nestedFields by decide, by decide, fun hf => absurd hf (by decide), fun _ => ⟨_, rfl⟩⟩

theorem proper_nested (h : (f, key) ∈ [("compaction", "enabled"), ("agentTraces", "enabled"),
    ("telemetry", "enabled"), ("telemetry", "noticeShown"), ("retry", "enabled"), ("terminal", "showImages"),
    ("terminal", "clearOnShrink"), ("terminal", "fullscreen"), ("terminal", "fullscreenMouse"),
    ("terminal", "showTerminalProgress"), ("images", "autoResize"), ("images", "blockImages"),
    ("markdown", "mermaid")]) (creation : Creation) (w : Value) : Edit.Proper (.nested creation f key w) := by
  have hkey : f = "telemetry" ∨ f = "markdown" → key ∈ ["enabled", "noticeShown", "mermaid"] := by
    intro hf
    rcases hf with rfl | rfl
    · have hkey : key = "enabled" ∨ key = "noticeShown" := by simpa using h
      rcases hkey with rfl | rfl <;> decide
    · have hkey : key = "mermaid" := by simpa using h
      rw [hkey]
      decide
  have hretry : f = "retry" → key = "enabled" := by
    rintro rfl
    revert h
    simp
  have hfield : f ∈ nestedFields ∧ key ≠ "" ∧ key ≠ "__proto__" := by
    revert h
    simp only [mem_cons, Prod.mk.injEq, not_mem_nil, or_false]
    rintro (h | h | h | h | h | h | h | h | h | h | h | h | h) <;> rw [h.1, h.2] <;> decide
  refine ⟨hfield, ?_, hretry, fun hf => ⟨rfl, hkey hf⟩⟩
  have := hfield.1
  revert this
  simp only [nestedFields, mem_cons, not_mem_nil, or_false]
  rintro (h | h | h | h | h | h | h | h) <;> rw [h] <;> decide

/-- Every edit of every setter is one that migration leaves alone. -/
theorem Setter.edits_proper {setter : Setter} (h : setter.Named) (memory settings : SettingsMap) :
    ∀ e ∈ setter.edits memory settings, e.Proper := by
  intro e he
  cases setter with
  | setDefaultModelAndProvider provider modelId =>
    simp only [Setter.edits, mem_cons, not_mem_nil, or_false] at he
    rcases he with rfl | rfl | rfl <;> exact proper_whole (by decide) _
  | setIdleEvictionMinutes value =>
    cases value with
    | none =>
      cases mem_singleton.mp he
      exact proper_whole (by decide) _
    | some n =>
      simp only [Setter.edits] at he
      split at he
      · cases he
      · cases mem_singleton.mp he
        exact proper_whole (by decide) _
  | setGlobalMcpServer name config force =>
    simp only [Setter.edits] at he
    split at he
    · cases he
    · cases mem_singleton.mp he
      exact proper_mcp h _
  | removeGlobalMcpServer name =>
    simp only [Setter.edits] at he
    split at he
    · cases mem_singleton.mp he
      exact proper_mcp h _
    · cases he
  | _ =>
    cases mem_singleton.mp he
    first
    | exact proper_skills _
    | exact proper_present (by decide) _
    | exact proper_whole (by decide) _
    | exact proper_nested (by decide) _ _

/-! ### Marks -/

/-- The keys that are marked: a field as a whole where none of its members is. -/
def Marks.keys (marks : Marks) : List Key :=
  (marks.fields.filter fun f => marks.nestedKeys f = []).map (·, none) ++ marks.nested.map fun p => (p.1, some p.2)

variable {marks : Marks}

theorem mem_nestedKeys : key ∈ marks.nestedKeys f ↔ (f, key) ∈ marks.nested := by
  simp only [Marks.nestedKeys, mem_map, mem_filter, decide_eq_true_eq]
  constructor
  · rintro ⟨p, ⟨hp, rfl⟩, rfl⟩
    exact hp
  · intro h
    exact ⟨(f, key), ⟨h, rfl⟩, rfl⟩

theorem mem_keys_none : (f, none) ∈ marks.keys ↔ f ∈ marks.fields ∧ marks.nestedKeys f = [] := by
  simp [Marks.keys]

theorem mem_keys_some : (f, some key) ∈ marks.keys ↔ (f, key) ∈ marks.nested := by
  simp [Marks.keys]

/-- Marks as the setters make them, with the objects in memory that the marked members are in. -/
structure Marks.Ok (memory : SettingsMap) (marks : Marks) : Prop where
  listed : ∀ p ∈ marks.nested, p.1 ∈ marks.fields ∧ Valid (p.1, some p.2)
  whole : ∀ f ∈ marks.fields, f ∈ nestedFields → marks.nestedKeys f ≠ []
  object : ∀ p ∈ marks.nested, ∃ fields, memory.get? p.1 = some (.object fields)

theorem ok_empty (memory : SettingsMap) : Marks.empty.Ok memory :=
  ⟨fun _ h => absurd h not_mem_nil, fun _ h => absurd h not_mem_nil, fun _ h => absurd h not_mem_nil⟩

variable {memory memory' : SettingsMap} {marks : Marks}

theorem Marks.Ok.valid (h : marks.Ok memory) (hk : k ∈ marks.keys) : Valid k := by
  obtain ⟨f, o⟩ := k
  cases o with
  | none =>
    obtain ⟨hf, hn⟩ := mem_keys_none.mp hk
    intro hnested
    exact h.whole f hf hnested hn
  | some key => exact (h.listed _ (mem_keys_some.mp hk)).2

theorem Marks.Ok.object_of_nestedKeys (h : marks.Ok memory) (hn : marks.nestedKeys f ≠ []) :
    ∃ fields, memory.get? f = some (.object fields) := by
  obtain ⟨key, hkey⟩ := exists_mem_of_ne_nil _ hn
  exact h.object _ (mem_nestedKeys.mp hkey)

/-- Two keys name parts of the settings that meet. -/
def Overlap (k k' : Key) : Prop := k.1 = k'.1 ∧ (k.2 = none ∨ k'.2 = none ∨ k.2 = k'.2)

theorem eq_of_overlap (hk : Valid k) (hk' : Valid k') (h : Overlap k k') : k = k' := by
  obtain ⟨f, o⟩ := k
  obtain ⟨f', o'⟩ := k'
  obtain ⟨hf, h⟩ := h
  have hf : f = f' := hf
  subst hf
  cases o with
  | none =>
    cases o' with
    | none => rfl
    | some key => exact absurd hk'.1 hk
  | some key =>
    cases o' with
    | none => exact absurd hk.1 hk'
    | some key' => rcases h with h | h | h <;> cases h; rfl

/-! ### What a queued write makes of the file -/

section Persist

variable {task : Task} {file : Option FileContent} {base after : SettingsMap}

theorem get?_persist (hp : persistScopedSettings file task = some after) : ∃ base, load file = some base ∧
    ∀ f, after.get? f = if f ∈ task.marks.fields then task.fieldValue base f else base.get? f := by
  obtain ⟨base, hb, rfl⟩ := map_eq_some_iff.mp hp
  exact ⟨base, hb, fun f => get?_foldl_put _ _ _ _⟩

theorem fieldValue_whole (h : task.marks.nestedKeys f = []) : task.fieldValue base f = task.snapshot.get? f := by
  unfold Task.fieldValue
  split
  · rename_i v hv
    rw [if_neg (fun hc => hc.1 h), hv]
  · rename_i hv
    rw [hv]

theorem member_fieldValue (hok : task.marks.Ok task.snapshot) (h : task.marks.nestedKeys f ≠ []) (key : String) :
    ((task.fieldValue base f).bind fun v => (members v).get? key) =
      if key ∈ task.marks.nestedKeys f then lookup task.snapshot (f, some key) else lookup base (f, some key) := by
  obtain ⟨fields, hobject⟩ := hok.object_of_nestedKeys h
  have hproto : ∀ key' ∈ task.marks.nestedKeys f, key' ≠ "__proto__" := by
    intro key' hkey
    exact (hok.listed _ (mem_nestedKeys.mp hkey)).2.2.2
  have hfilter : (task.marks.nestedKeys f).filter (· ≠ "__proto__") = task.marks.nestedKeys f := by
    rw [filter_eq_self]
    intro key' hkey
    simpa using hproto key' hkey
  have hbase : (members ((base.get? f).getD .null)).get? key = lookup base (f, some key) := by
    simp only [lookup]
    cases base.get? f with
    | none => rfl
    | some v => rfl
  simp only [Task.fieldValue, hobject]
  rw [if_pos ⟨h, rfl⟩, hfilter, bind_some, get?_members_ofMembers, get?_foldl_put, hbase]
  simp only [lookup, hobject, bind_some]

theorem lookup_persist_of_mem (hok : task.marks.Ok task.snapshot)
    (hp : persistScopedSettings file task = some after) (hk : k ∈ task.marks.keys) :
    lookup after k = lookup task.snapshot k := by
  obtain ⟨base, -, hget⟩ := get?_persist hp
  obtain ⟨f, o⟩ := k
  cases o with
  | none =>
    obtain ⟨hf, hn⟩ := mem_keys_none.mp hk
    simp only [lookup, hget, if_pos hf, fieldValue_whole hn]
  | some key =>
    have hmem := mem_keys_some.mp hk
    have hkey := mem_nestedKeys.mpr hmem
    simp only [lookup, hget, if_pos (hok.listed _ hmem).1]
    rw [member_fieldValue hok (ne_nil_of_mem hkey), if_pos hkey]
    rfl

theorem lookup_persist_of_disjoint (hok : task.marks.Ok task.snapshot)
    (hp : persistScopedSettings file task = some after) : ∃ base, load file = some base ∧
      ∀ k, (∀ k' ∈ task.marks.keys, ¬ Overlap k k') → lookup after k = lookup base k := by
  obtain ⟨base, hb, hget⟩ := get?_persist hp
  refine ⟨base, hb, ?_⟩
  intro k hk
  obtain ⟨f, o⟩ := k
  by_cases hf : f ∈ task.marks.fields
  · have hn : task.marks.nestedKeys f ≠ [] := by
      intro hn
      have hwhole := mem_keys_none.mpr ⟨hf, hn⟩
      exact hk _ hwhole ⟨rfl, .inr (.inl rfl)⟩
    cases o with
    | none =>
      obtain ⟨key, hkey⟩ := exists_mem_of_ne_nil _ hn
      exact absurd ⟨rfl, .inl rfl⟩ (hk _ (mem_keys_some.mpr (mem_nestedKeys.mp hkey)))
    | some key =>
      have hkey : key ∉ task.marks.nestedKeys f := by
        intro hkey
        exact hk _ (mem_keys_some.mpr (mem_nestedKeys.mp hkey)) ⟨rfl, .inr (.inr rfl)⟩
      simp only [lookup, hget, if_pos hf]
      rw [member_fieldValue hok hn, if_neg hkey]
      rfl
  · exact lookup_congr ((hget f).trans (if_neg hf)) o

end Persist

/-! ### What a setter makes of the memory and the marks -/

section Edits

variable {e : Edit}

theorem mem_keys_markModified (hok : marks.Ok memory) (hk : Valid k) :
    k' ∈ (marks.markModified k).keys ↔ k' = k ∨ k' ∈ marks.keys := by
  obtain ⟨g, o'⟩ := k'
  obtain ⟨f, o⟩ := k
  cases o with
  | none =>
    cases o' with
    | none =>
      have hnil : marks.nestedKeys f = [] := by
        rw [eq_nil_iff_forall_not_mem]
        intro key hkey
        exact hk (hok.listed _ (mem_nestedKeys.mp hkey)).2.1
      have hsame : (marks.markModified (f, none)).nestedKeys g = marks.nestedKeys g := rfl
      rw [mem_keys_none, mem_keys_none, hsame]
      simp only [Marks.markModified, mem_append, mem_singleton, Prod.mk.injEq, and_true]
      constructor
      · rintro ⟨hg | rfl, hn⟩
        · exact .inr ⟨hg, hn⟩
        · exact .inl rfl
      · rintro (rfl | ⟨hg, hn⟩)
        · exact ⟨.inr rfl, hnil⟩
        · exact ⟨.inl hg, hn⟩
    | some key' =>
      rw [mem_keys_some, mem_keys_some]
      simp [Marks.markModified]
  | some key =>
    have hnested : (marks.markModified (f, some key)).nested = marks.nested ++ [(f, key)] := by
      simp only [Marks.markModified, if_neg hk.2.1]
    cases o' with
    | none =>
      rw [mem_keys_none, mem_keys_none]
      simp only [Marks.nestedKeys, hnested, filter_append, map_append, append_eq_nil_iff]
      simp only [Marks.markModified, mem_append, mem_singleton, Prod.mk.injEq, reduceCtorEq, and_false, false_or]
      constructor
      · rintro ⟨hg | rfl, hn, hn'⟩
        · exact ⟨hg, hn⟩
        · simp at hn'
      · rintro ⟨hg, hn⟩
        refine ⟨.inl hg, hn, ?_⟩
        have hne : f ≠ g := by
          rintro rfl
          exact hok.whole f hg hk.1 hn
        simp [hne]
    | some key' =>
      rw [mem_keys_some, mem_keys_some, hnested]
      simp [Prod.ext_iff, or_comm]

theorem Creation.target_object (creation : Creation) (fields : List (String × Value)) :
    creation.target (some (.object fields)) = some (.ofList fields) := by
  cases creation <;> rfl

variable (h : e.apply memory = some memory')

include h

theorem apply_get?_of_ne (hf : f ≠ e.key.1) : memory'.get? f = memory.get? f := by
  cases e with
  | whole field value =>
    cases h
    exact (get?_put _ _ _ _).trans (if_neg hf)
  | nested creation field key value =>
    obtain ⟨m, -, rfl⟩ := map_eq_some_iff.mp h
    exact (get?_set _ _ _ _).trans (if_neg hf)
  | spread field key value =>
    cases h
    exact (get?_set _ _ _ _).trans (if_neg hf)

theorem apply_lookup_key : lookup memory' e.key = e.value := by
  cases e with
  | whole field value =>
    cases h
    exact (get?_put _ _ _ _).trans (if_pos rfl)
  | nested creation field key value =>
    obtain ⟨m, -, rfl⟩ := map_eq_some_iff.mp h
    simp only [Edit.key, Edit.value, lookup, get?_set, if_pos, bind_some, get?_members_ofMembers]
  | spread field key value =>
    cases h
    simp only [Edit.key, Edit.value, lookup, get?_set, if_pos, bind_some, get?_members_ofMembers, get?_put]

theorem apply_object (he : e.key = (f, some key)) : ∃ fields, memory'.get? f = some (.object fields) := by
  cases e with
  | whole field value => cases he
  | nested creation field key value =>
    cases he
    obtain ⟨m, -, rfl⟩ := map_eq_some_iff.mp h
    exact ⟨_, (get?_set _ _ _ _).trans (if_pos rfl)⟩
  | spread field key value =>
    cases he
    cases h
    exact ⟨_, (get?_set _ _ _ _).trans (if_pos rfl)⟩

theorem apply_lookup_member (he : e.key = (f, some key))
    {fields : List (String × Value)} (hobject : memory.get? f = some (.object fields)) {key' : String}
    (hkey : key' ≠ key) : lookup memory' (f, some key') = lookup memory (f, some key') := by
  cases e with
  | whole field value => cases he
  | nested creation field key value =>
    cases he
    simp only [Edit.apply, hobject, Creation.target_object, map_some, Option.some.injEq] at h
    subst h
    simp only [lookup, get?_set, if_pos, bind_some, get?_members_ofMembers, if_neg hkey, hobject]
    rfl
  | spread field key value =>
    cases he
    cases h
    simp only [lookup, get?_set, if_pos, bind_some, get?_members_ofMembers,
      get?_put, if_neg hkey, hobject, getD_some]

theorem apply_lookup_of_ne (he : e.Proper) (hok : marks.Ok memory)
    (hk : k ∈ marks.keys) (hne : k ≠ e.key) : lookup memory' k = lookup memory k := by
  obtain ⟨f, o⟩ := k
  by_cases hf : f = e.key.1
  · have hnot : ¬ Overlap (f, o) e.key := mt (eq_of_overlap (hok.valid hk) he.valid) hne
    cases o with
    | none => exact absurd ⟨hf, .inl rfl⟩ hnot
    | some key' =>
      cases hkey : e.key.2 with
      | none => exact absurd ⟨hf, .inr (.inl hkey)⟩ hnot
      | some key =>
        have he' : e.key = (f, some key) := Prod.ext hf.symm hkey
        obtain ⟨fields, hobject⟩ := hok.object _ (mem_keys_some.mp hk)
        refine apply_lookup_member h he' hobject ?_
        rintro rfl
        exact hne he'.symm
  · exact lookup_congr (apply_get?_of_ne h hf) o

omit h

theorem Marks.Ok.markModified (hok : marks.Ok memory) (he : e.Proper) (h : e.apply memory = some memory') :
    (marks.markModified e.key).Ok memory' := by
  have hkeys : ∀ k, k ∈ (marks.markModified e.key).keys ↔ k = e.key ∨ k ∈ marks.keys :=
    fun _ => mem_keys_markModified hok he.valid
  have hfields : ∀ f, f ∈ marks.fields ∨ f = e.key.1 ↔ f ∈ (marks.markModified e.key).fields := by
    intro f
    rcases e.key with ⟨g, o⟩
    cases o <;> simp [Marks.markModified]
  refine ⟨?_, ?_, ?_⟩
  · intro p hp
    rcases (hkeys _).mp (mem_keys_some.mpr hp) with hk | hk
    · refine ⟨(hfields _).mp (.inr (congrArg Prod.fst hk)), ?_⟩
      rw [hk]
      exact he.valid
    · obtain ⟨hf, hv⟩ := hok.listed _ (mem_keys_some.mp hk)
      exact ⟨(hfields _).mp (.inl hf), hv⟩
  · intro f hf hn hnil
    have hwhole := (hkeys _).mp (mem_keys_none.mpr ⟨hf, hnil⟩)
    rcases hwhole with hk | hk
    · have hv := he.valid
      rw [← hk] at hv
      exact hv hn
    · obtain ⟨hf, hnil⟩ := mem_keys_none.mp hk
      exact hok.whole f hf hn hnil
  · intro p hp
    rcases (hkeys _).mp (mem_keys_some.mpr hp) with hk | hk
    · exact apply_object h hk.symm
    · by_cases hf : p.1 = e.key.1
      · cases hkey : e.key.2 with
        | none =>
          have hv := he.valid
          rw [show e.key = (p.1, none) from Prod.ext hf.symm hkey] at hv
          exact absurd (hok.valid hk).1 hv
        | some key => exact apply_object h (Prod.ext hf.symm hkey)
      · obtain ⟨fields, hobject⟩ := hok.object _ (mem_keys_some.mp hk)
        exact ⟨fields, (apply_get?_of_ne h hf).trans hobject⟩

end Edits

/-! ### Where the value of a key waits -/

def tasks (items : List (Option Task)) : List Task := items.filterMap id

/-- The queued writes that put a key into the file. -/
def writers (k : Key) (ts : List Task) : List Task := ts.filter fun t => k ∈ t.marks.keys

theorem tasks_concat (items : List (Option Task)) (t : Task) : tasks (items ++ [some t]) = tasks items ++ [t] := by
  simp [tasks]

theorem tasks_concat_none (items : List (Option Task)) : tasks (items ++ [none]) = tasks items := by
  simp [tasks]

variable {t : Task} {ts : List Task}

theorem writers_concat_of_mem (h : k ∈ t.marks.keys) : writers k (ts ++ [t]) = writers k ts ++ [t] := by
  simp [writers, h]

theorem writers_concat_of_not_mem (h : k ∉ t.marks.keys) : writers k (ts ++ [t]) = writers k ts := by
  simp [writers, h]

theorem writers_cons_of_mem (h : k ∈ t.marks.keys) : writers k (t :: ts) = t :: writers k ts := by
  simp [writers, h]

theorem writers_cons_of_not_mem (h : k ∉ t.marks.keys) : writers k (t :: ts) = writers k ts := by
  simp [writers, h]

theorem mem_writers (ht : t ∈ ts) (h : k ∈ t.marks.keys) : t ∈ writers k ts :=
  mem_filter.mpr ⟨ht, decide_eq_true h⟩

/-- The last queued write that marks the key has the value. Without one, the key is marked for the next write, or
the value is in the file. -/
def Waits (s : ScopeState) (ts : List Task) (k : Key) (v : Option Value) : Prop :=
  match (writers k ts).getLast? with
  | some t => lookup t.snapshot k = v
  | none => (s.loadError = false ∧ k ∈ s.marks.keys) ∨ fileValue s.file k = v

variable {s : ScopeState}

theorem waits_of_last (h : (writers k ts).getLast? = some t) : Waits s ts k v ↔ lookup t.snapshot k = v := by
  simp only [Waits, h]

theorem waits_of_none (h : writers k ts = []) :
    Waits s ts k v ↔ (s.loadError = false ∧ k ∈ s.marks.keys) ∨ fileValue s.file k = v := by
  simp only [Waits, h, getLast?_nil]

theorem waits_congr {s' : ScopeState} {ts' : List Task} (h : writers k ts = writers k ts')
    (hs : (s.loadError = false ∧ k ∈ s.marks.keys) ∨ fileValue s.file k = v →
      (s'.loadError = false ∧ k ∈ s'.marks.keys) ∨ fileValue s'.file k = v)
    (hw : Waits s ts k v) : Waits s' ts' k v := by
  unfold Waits at *
  rw [← h]
  cases hlast : (writers k ts).getLast? with
  | none =>
    rw [hlast] at hw
    exact hs hw
  | some t =>
    rw [hlast] at hw
    exact hw

namespace ScopeState

/-- The last write of the scope was made. -/
def Saved (s : ScopeState) : Prop := ∃ before after, s.lastWrite = .saved before after

/-- A scope and the items of the queue that concern it, `none` for a reload. -/
structure Inv (s : ScopeState) (items : List (Option Task)) : Prop where
  marks : s.marks.Ok s.memory
  tasks : ∀ t ∈ tasks items, t.marks.Ok t.snapshot
  proper : ∀ k v, s.latest k = some v → Valid k ∧ Stable k v
  memory : s.loadError = false → ∀ k ∈ s.marks.keys, ∀ v, s.latest k = some v → lookup s.memory k = v
  last : s.loadError = false → ∀ t, (Settings.tasks items).getLast? = some t → ∀ k ∈ s.marks.keys, k ∈ t.marks.keys
  clean : s.loadError = false → Settings.tasks items = [] → s.Saved → s.marks.keys = []
  waits : ∀ k v, s.latest k = some v → Waits s (Settings.tasks items) k v
  reload : ∀ before after, items = before ++ none :: after → ∀ k v, s.latest k = some v →
    ∃ t ∈ Settings.tasks after, k ∈ t.marks.keys
  touched : ∀ k ∈ s.marks.keys, k ∈ s.touched
  tasksTouched : ∀ t ∈ Settings.tasks items, ∀ k ∈ t.marks.keys, k ∈ s.touched
  saved : ∀ before after, s.lastWrite = .saved before after → ∃ base, load before = some base ∧
    ∀ k, (∀ k' ∈ s.touched, ¬ Overlap k k') → lookup after k = lookup base k

/-- Nothing that was set is lost: with no write queued and the last one made, the file has every value. -/
theorem Inv.fileValue_eq {s : ScopeState} (h : s.Inv []) (hsaved : s.Saved) {k : Key} {v : Option Value}
    (hv : s.latest k = some v) : fileValue s.file k = v := by
  rcases (waits_of_none rfl).mp (h.waits k v hv) with ⟨he, hk⟩ | hf
  · rw [h.clean he rfl hsaved] at hk
    exact absurd hk not_mem_nil
  · exact hf

variable {s : ScopeState} {items : List (Option Task)} {t : Task}

theorem not_overlap_of_not_mem (ht : t.marks.Ok t.snapshot) (hk : Valid k) (hn : k ∉ t.marks.keys) :
    ∀ k' ∈ t.marks.keys, ¬ Overlap k k' := by
  intro k' hk' ho
  rw [eq_of_overlap hk (ht.valid hk') ho] at hn
  exact hn hk'

/-- A key that migration leaves alone is in the file that a write starts from as it is in the file. -/
theorem lookup_load {file : Option FileContent} {base : SettingsMap} (hl : load file = some base)
    (hs : Stable k v) (hv : fileValue file k = v) : lookup base k = v := by
  cases file with
  | none =>
    cases hl
    obtain ⟨f, o⟩ := k
    cases o <;> exact hv
  | some content =>
    cases content with
    | settings settings =>
      cases hl
      exact lookup_migrateSettings hs hv
    | unreadable => cases hl

theorem Inv.write (h : s.Inv (some t :: items)) {after : SettingsMap}
    (hp : persistScopedSettings s.file t = some after) :
    Inv { s with file := some (.settings after), marks := .empty, lastWrite := .saved s.file after } items := by
  have hts : Settings.tasks (some t :: items) = t :: Settings.tasks items := rfl
  have ht := h.tasks t (by rw [hts]; exact mem_cons_self)
  obtain ⟨base, hbase, hdisjoint⟩ := lookup_persist_of_disjoint ht hp
  have hsub : ∀ t' ∈ Settings.tasks items, t' ∈ Settings.tasks (some t :: items) := by
    intro t' ht'
    rw [hts]
    exact mem_cons_of_mem _ ht'
  have hwaits : ∀ k v, s.latest k = some v →
      Waits { s with file := some (.settings after), marks := .empty, lastWrite := .saved s.file after }
        (Settings.tasks items) k v := by
    intro k v hv
    obtain ⟨hvalid, hstable⟩ := h.proper k v hv
    have hw := h.waits k v hv
    rw [hts] at hw
    by_cases hk : k ∈ t.marks.keys
    · rw [Waits, writers_cons_of_mem hk] at hw
      cases hlast : (writers k (Settings.tasks items)).getLast? with
      | none =>
        have hnil := getLast?_eq_none_iff.mp hlast
        rw [hnil] at hw
        refine (waits_of_none hnil).mpr (.inr ?_)
        exact (lookup_persist_of_mem ht hp hk).trans hw
      | some t' =>
        rw [getLast?_cons, hlast] at hw
        exact (waits_of_last hlast).mpr hw
    · rw [Waits, writers_cons_of_not_mem hk] at hw
      cases hlast : (writers k (Settings.tasks items)).getLast? with
      | none =>
        rw [hlast] at hw
        refine (waits_of_none (getLast?_eq_none_iff.mp hlast)).mpr (.inr ?_)
        rcases hw with ⟨he, hmark⟩ | hfile
        · -- A marked key is in the last queued write, but no queued write has this one.
          obtain ⟨t', ht'⟩ : ∃ t', (Settings.tasks (some t :: items)).getLast? = some t' :=
            isSome_iff_exists.mp (by rw [hts]; simp)
          have hlastKey := h.last he t' ht' k hmark
          have hmem := mem_writers (mem_of_getLast? ht') hlastKey
          rw [hts, writers_cons_of_not_mem hk, getLast?_eq_none_iff.mp hlast] at hmem
          exact absurd hmem not_mem_nil
        · exact (hdisjoint k (not_overlap_of_not_mem ht hvalid hk)).trans (lookup_load hbase hstable hfile)
      | some t' =>
        rw [hlast] at hw
        exact (waits_of_last hlast).mpr hw
  refine
    { marks := ok_empty _
      tasks := fun t' ht' => h.tasks t' (hsub t' ht')
      proper := h.proper
      memory := fun _ k hk => absurd hk not_mem_nil
      last := fun _ _ _ k hk => absurd hk not_mem_nil
      clean := fun _ _ _ => rfl
      waits := hwaits
      reload := ?_
      touched := fun k hk => absurd hk not_mem_nil
      tasksTouched := fun t' ht' => h.tasksTouched t' (hsub t' ht')
      saved := ?_ }
  · intro before after' hitems k v hv
    exact h.reload (some t :: before) after' (by rw [hitems]; rfl) k v hv
  · intro before after' hsaved
    cases hsaved
    refine ⟨base, hbase, ?_⟩
    intro k hk
    refine hdisjoint k fun k' hk' => hk k' ?_
    exact h.tasksTouched t (by rw [hts]; exact mem_cons_self) k' hk'

/-- Every key of the failing write is marked for the next one, or in a write that is queued behind it. -/
def Retried (s : ScopeState) (t : Task) (items : List (Option Task)) : Prop :=
  ∀ k ∈ t.marks.keys, (s.loadError = false ∧ k ∈ s.marks.keys) ∨ ∃ t' ∈ Settings.tasks items, k ∈ t'.marks.keys

theorem Inv.fail (h : s.Inv (some t :: items)) (hr : s.Retried t items) :
    Inv { s with lastWrite := .failed } items := by
  have hts : Settings.tasks (some t :: items) = t :: Settings.tasks items := rfl
  have hsub : ∀ t' ∈ Settings.tasks items, t' ∈ Settings.tasks (some t :: items) := by
    intro t' ht'
    rw [hts]
    exact mem_cons_of_mem _ ht'
  refine
    { marks := h.marks
      tasks := fun t' ht' => h.tasks t' (hsub t' ht')
      proper := h.proper
      memory := h.memory
      last := ?_
      clean := ?_
      waits := ?_
      reload := ?_
      touched := h.touched
      tasksTouched := fun t' ht' => h.tasksTouched t' (hsub t' ht')
      saved := ?_ }
  · intro he t' ht'
    refine h.last he t' ?_
    rw [hts, getLast?_cons, ht', getD_some]
  · rintro - - ⟨before, after, hsaved⟩
    cases hsaved
  · intro k v hv
    have hw := h.waits k v hv
    rw [hts] at hw
    by_cases hk : k ∈ t.marks.keys
    · rw [Waits, writers_cons_of_mem hk] at hw
      cases hlast : (writers k (Settings.tasks items)).getLast? with
      | none =>
        have hnil := getLast?_eq_none_iff.mp hlast
        refine (waits_of_none hnil).mpr (.inl ?_)
        rcases hr k hk with hmark | ⟨t', ht', hk'⟩
        · exact hmark
        · have hmem := mem_writers ht' hk'
          rw [hnil] at hmem
          exact absurd hmem not_mem_nil
      | some t' =>
        rw [getLast?_cons, hlast] at hw
        exact (waits_of_last hlast).mpr hw
    · exact waits_congr (writers_cons_of_not_mem hk) id hw
  · intro before after hitems k v hv
    exact h.reload (some t :: before) after (by rw [hitems]; rfl) k v hv
  · intro before after hsaved
    cases hsaved

/-- A reload leaves the writes behind it alone, and these have every key that was set since it was called. -/
theorem Inv.reloaded (h : s.Inv (none :: items)) (reads : Bool) : (s.reload reads).Inv items := by
  have hts : Settings.tasks (none :: items) = Settings.tasks items := rfl
  have hs : s.reload reads = { s with
      memory := (s.reload reads).memory, loadError := (s.reload reads).loadError, marks := .empty } := by
    simp only [ScopeState.reload]
    split <;> rfl
  rw [hs]
  refine
    { marks := ok_empty _
      tasks := h.tasks
      proper := h.proper
      memory := fun _ k hk => absurd hk not_mem_nil
      last := fun _ _ _ k hk => absurd hk not_mem_nil
      clean := fun _ _ _ => rfl
      waits := ?_
      reload := fun before after hitems => h.reload (none :: before) after (by rw [hitems]; rfl)
      touched := fun k hk => absurd hk not_mem_nil
      tasksTouched := h.tasksTouched
      saved := h.saved }
  intro k v hv
  obtain ⟨t, ht, hk⟩ := h.reload [] items rfl k v hv
  have hmem := mem_writers ht hk
  have hw := h.waits k v hv
  rw [hts] at hw
  cases hlast : (writers k (Settings.tasks items)).getLast? with
  | none =>
    rw [getLast?_eq_none_iff.mp hlast] at hmem
    exact absurd hmem not_mem_nil
  | some t' => exact (waits_of_last hlast).mpr ((waits_of_last hlast).mp hw)

theorem Inv.callReload (h : s.Inv items) : Inv { s with latest := fun _ => none } (items ++ [none]) := by
  refine
    { marks := h.marks
      tasks := fun t ht => h.tasks t (by rwa [tasks_concat_none] at ht)
      proper := nofun
      memory := fun _ _ _ _ hv => by cases hv
      last := fun he t ht => h.last he t (by rwa [tasks_concat_none] at ht)
      clean := fun he hnil hsaved => h.clean he (by rwa [tasks_concat_none] at hnil) hsaved
      waits := nofun
      reload := fun _ _ _ _ _ hv => by cases hv
      touched := h.touched
      tasksTouched := fun t ht => h.tasksTouched t (by rwa [tasks_concat_none] at ht)
      saved := h.saved }

theorem latest_overwrite {content : Option FileContent} (hv : (s.overwrite content).latest k = some v) :
    s.latest k = some v ∧ fileValue content k = fileValue s.file k := by
  simp only [overwrite] at hv
  split at hv
  · exact ⟨hv, ‹_›⟩
  · cases hv

theorem Inv.overwrite (h : s.Inv items) (content : Option FileContent) : (s.overwrite content).Inv items := by
  refine
    { marks := h.marks
      tasks := h.tasks
      proper := fun k v hv => h.proper k v (latest_overwrite hv).1
      memory := fun he k hk v hv => h.memory he k hk v (latest_overwrite hv).1
      last := h.last
      clean := h.clean
      waits := ?_
      reload := fun before after hitems k v hv => h.reload before after hitems k v (latest_overwrite hv).1
      touched := h.touched
      tasksTouched := h.tasksTouched
      saved := h.saved }
  intro k v hv
  obtain ⟨hv, hfile⟩ := latest_overwrite hv
  refine waits_congr rfl ?_ (h.waits k v hv)
  rintro (hmark | hf)
  · exact .inl hmark
  · exact .inr (hfile.trans hf)

/-! ### Setters -/

/-- What the edits of one setter keep of the memory and the marks. -/
structure Edited (memory : SettingsMap) (marks : Marks) (latest : Key → Option (Option Value))
    (touched : List Key) : Prop where
  ok : marks.Ok memory
  proper : ∀ k v, latest k = some v → Valid k ∧ Stable k v
  memory : ∀ k ∈ marks.keys, ∀ v, latest k = some v → lookup memory k = v
  touched : ∀ k ∈ marks.keys, k ∈ touched

variable {memory memory' : SettingsMap} {marks : Marks} {latest : Key → Option (Option Value)}

theorem Edited.edit
    {touched : List Key} {e : Edit} (h : Edited memory marks latest touched) (he : e.Proper)
    (happly : e.apply memory = some memory') :
    Edited memory' (marks.markModified e.key) (fun k => if k = e.key then some e.value else latest k)
      (touched ++ [e.key]) := by
  have hkeys : ∀ k, k ∈ (marks.markModified e.key).keys ↔ k = e.key ∨ k ∈ marks.keys :=
    fun _ => mem_keys_markModified h.ok he.valid
  refine ⟨h.ok.markModified he happly, ?_, ?_, ?_⟩
  · intro k v hv
    split at hv
    · cases hv
      rename_i hk
      rw [hk]
      exact ⟨he.valid, he.stable⟩
    · exact h.proper k v hv
  · intro k hk v hv
    split at hv
    · cases hv
      rename_i hk
      rw [hk]
      exact apply_lookup_key happly
    · rename_i hne
      have hk : k ∈ marks.keys := ((hkeys k).mp hk).resolve_left hne
      rw [apply_lookup_of_ne happly he h.ok hk hne]
      exact h.memory k hk v hv
  · intro k hk
    rcases (hkeys k).mp hk with rfl | hk
    · exact mem_append_right _ mem_cons_self
    · exact mem_append_left _ (h.touched k hk)

theorem Edited.edits {edits : List Edit} (hproper : ∀ e ∈ edits, e.Proper)
    {touched : List Key}
    (h : Edited memory marks latest touched) (happly : edits.foldlM Edit.apply memory = some memory') :
    Edited memory' (edits.foldl (fun marks e => marks.markModified e.key) marks)
      (edits.foldl (fun latest e k => if k = e.key then some e.value else latest k) latest)
      (touched ++ edits.map Edit.key) := by
  induction edits generalizing memory marks latest touched with
  | nil =>
    cases happly
    simpa using h
  | cons e edits ih =>
    obtain ⟨m, hm, happly⟩ := bind_eq_some_iff.mp happly
    obtain ⟨he, hproper⟩ := forall_mem_cons.mp hproper
    have hnext := ih hproper (h.edit he hm) happly
    rw [append_assoc] at hnext
    exact hnext

theorem mem_keys_edits {edits : List Edit} (hproper : ∀ e ∈ edits, e.Proper)
    (hok : marks.Ok memory) (happly : edits.foldlM Edit.apply memory = some memory') :
    k ∈ (edits.foldl (fun marks e => marks.markModified e.key) marks).keys ↔
      k ∈ marks.keys ∨ k ∈ edits.map Edit.key := by
  induction edits generalizing memory marks with
  | nil => simp
  | cons e edits ih =>
    obtain ⟨m, hm, happly⟩ := bind_eq_some_iff.mp happly
    obtain ⟨he, hproper⟩ := forall_mem_cons.mp hproper
    rw [foldl_cons, ih hproper (hok.markModified he hm) happly, mem_keys_markModified hok he.valid,
      map_cons, mem_cons]
    tauto

theorem latest_edits_of_not_mem {edits : List Edit}
    (hk : k ∉ edits.map Edit.key) :
    edits.foldl (fun latest e k => if k = e.key then some e.value else latest k) latest k = latest k := by
  induction edits generalizing latest with
  | nil => rfl
  | cons e edits ih =>
    rw [map_cons, mem_cons, not_or] at hk
    rw [foldl_cons, ih hk.2, if_neg hk.1]

section Set

variable {edits : List Edit} {memory' : SettingsMap} {t : Task}

theorem Inv.edited (h : s.Inv items) (he : s.loadError = false) :
    Edited s.memory s.marks s.latest s.touched := ⟨h.marks, h.proper, h.memory he, h.touched⟩

theorem Inv.accept (h : s.Inv items) (he : s.loadError = false) (hproper : ∀ e ∈ edits, e.Proper)
    (happly : edits.foldlM Edit.apply s.memory = some memory') (ht : t.snapshot = memory')
    (ht' : t.marks = ((s.edit memory' edits).record edits).marks) :
    Inv ((s.edit memory' edits).record edits) (items ++ [some t]) := by
  have hedited := (h.edited he).edits hproper happly
  have hkeys := fun k => mem_keys_edits (k := k) hproper h.marks happly
  have hnot : ∀ k, k ∉ t.marks.keys →
      k ∉ s.marks.keys ∧ ((s.edit memory' edits).record edits).latest k = s.latest k := by
    intro k hk
    rw [ht'] at hk
    obtain ⟨hmark, hedit⟩ := not_or.mp (mt (hkeys k).mpr hk)
    exact ⟨hmark, latest_edits_of_not_mem hedit⟩
  have htouched : ∀ k ∈ s.touched, k ∈ ((s.edit memory' edits).record edits).touched := by
    intro k hk
    exact mem_append_left _ hk
  refine
    { marks := hedited.ok
      tasks := ?_
      proper := hedited.proper
      memory := fun _ => hedited.memory
      last := ?_
      clean := ?_
      waits := ?_
      reload := ?_
      touched := hedited.touched
      tasksTouched := ?_
      saved := ?_ }
  · intro t' hmem
    rw [tasks_concat, mem_append, mem_singleton] at hmem
    rcases hmem with hmem | rfl
    · exact h.tasks t' hmem
    · rw [ht, ht']
      exact hedited.ok
  · intro _ t' hlast k hk
    rw [tasks_concat, getLast?_concat] at hlast
    rw [← Option.some.inj hlast, ht']
    exact hk
  · intro _ hnil _
    rw [tasks_concat] at hnil
    exact absurd hnil (by simp)
  · intro k v hv
    rw [tasks_concat]
    by_cases hk : k ∈ t.marks.keys
    · have hlast : (writers k (Settings.tasks items ++ [t])).getLast? = some t := by
        rw [writers_concat_of_mem hk, getLast?_concat]
      rw [waits_of_last hlast, ht]
      rw [ht'] at hk
      exact hedited.memory k hk v hv
    · obtain ⟨hmark, hlatest⟩ := hnot k hk
      rw [hlatest] at hv
      refine waits_congr (writers_concat_of_not_mem hk).symm ?_ (h.waits k v hv)
      rintro (⟨-, hm⟩ | hf)
      · exact absurd hm hmark
      · exact .inr hf
  · intro before after hitems k v hv
    rcases eq_nil_or_concat after with rfl | ⟨after', last, rfl⟩
    · have hlast := append_inj_right' hitems rfl
      simp at hlast
    · rw [concat_eq_append] at hitems ⊢
      have hcons : items ++ [some t] = (before ++ none :: after') ++ [last] := by simpa using hitems
      have hitems' := append_inj_left' hcons rfl
      have hlast : last = some t := by simpa using (append_inj_right' hcons rfl).symm
      rw [hlast, tasks_concat]
      by_cases hk : k ∈ t.marks.keys
      · exact ⟨t, mem_append_right _ mem_cons_self, hk⟩
      · rw [(hnot k hk).2] at hv
        obtain ⟨t', hmem, hk'⟩ := h.reload before after' hitems' k v hv
        exact ⟨t', mem_append_left _ hmem, hk'⟩
  · intro t' hmem k hk
    rw [tasks_concat, mem_append, mem_singleton] at hmem
    rcases hmem with hmem | rfl
    · exact htouched k (h.tasksTouched t' hmem k hk)
    · rw [ht'] at hk
      exact hedited.touched k hk
  · intro before after hsaved
    obtain ⟨base, hbase, hlookup⟩ := h.saved before after hsaved
    exact ⟨base, hbase, fun k hk => hlookup k fun k' hk' => hk k' (htouched k' hk')⟩

theorem Inv.refuse (h : s.Inv items) (he : s.loadError = true) (hproper : ∀ e ∈ edits, e.Proper)
    (happly : edits.foldlM Edit.apply s.memory = some memory') : (s.edit memory' edits).Inv items := by
  have hnone : Edited s.memory s.marks (fun _ => none) s.touched :=
    ⟨h.marks, nofun, fun _ _ _ hv => (by cases hv), h.touched⟩
  have hedited := hnone.edits hproper happly
  have hne : (s.edit memory' edits).loadError ≠ false := by
    rw [show (s.edit memory' edits).loadError = s.loadError from rfl, he]
    decide
  have htouched : ∀ k ∈ s.touched, k ∈ (s.edit memory' edits).touched := by
    intro k hk
    exact mem_append_left _ hk
  refine
    { marks := hedited.ok
      tasks := h.tasks
      proper := h.proper
      memory := fun hf => absurd hf hne
      last := fun hf => absurd hf hne
      clean := fun hf => absurd hf hne
      waits := ?_
      reload := h.reload
      touched := hedited.touched
      tasksTouched := fun t' ht' k hk => htouched k (h.tasksTouched t' ht' k hk)
      saved := ?_ }
  · intro k v hv
    refine waits_congr rfl ?_ (h.waits k v hv)
    rintro (⟨hf, -⟩ | hf)
    · rw [he] at hf
      cases hf
    · exact .inr hf
  · intro before after hsaved
    obtain ⟨base, hbase, hlookup⟩ := h.saved before after hsaved
    exact ⟨base, hbase, fun k hk => hlookup k fun k' hk' => hk k' (htouched k' hk')⟩

end Set

end ScopeState

/-! ### Runs -/

namespace State

variable {σ σ' : State} {scope : Scope}

/-- The part of the queue that concerns a scope. -/
def items (queue : List Item) (scope : Scope) : List (Option Task) :=
  queue.filterMap fun
    | .write task => if task.scope = scope then some (some task) else none
    | .reload => some none

def Inv (σ : State) : Prop := ∀ scope, (σ.scopes scope).Inv (items σ.queue scope)

/-- A setter is given a server's name that its callers let through, and a failing write leaves its keys to a later
one. -/
def Guard (σ : State) : Action → Prop
  | .set setter => setter.Named
  | .fail =>
    match σ.queue with
    | .write task :: queue => (σ.scopes task.scope).Retried task (items queue task.scope)
    | _ => True
  | _ => True

/-- The file of a scope after its last write, when all writes are done: it has the latest value of every key that
this manager has set since it last called `reload` and that nobody else has changed since, and that write left
every key that this manager has never set as it was, up to migration. -/
structure Kept (σ : State) (scope : Scope) : Prop where
  set : σ.queue = [] → (σ.scopes scope).Saved → ∀ k v, (σ.scopes scope).latest k = some v →
    fileValue (σ.scopes scope).file k = v
  unset : ∀ before after, (σ.scopes scope).lastWrite = .saved before after → ∃ base, load before = some base ∧
    ∀ k, (∀ k' ∈ (σ.scopes scope).touched, ¬ Overlap k k') → lookup after k = lookup base k

theorem Inv.kept (h : σ.Inv) (scope : Scope) : σ.Kept scope := by
  refine ⟨?_, (h scope).saved⟩
  intro hq hsaved k v hv
  have hinv := h scope
  rw [hq] at hinv
  exact hinv.fileValue_eq hsaved hv

theorem init_inv (files : Scope → Option FileContent) : (init files).Inv := by
  intro scope
  exact
    { marks := ok_empty _
      tasks := fun _ h => absurd h not_mem_nil
      proper := nofun
      memory := fun _ k hk => absurd hk not_mem_nil
      last := fun _ _ h => by cases h
      clean := fun _ _ _ => rfl
      waits := nofun
      reload := fun _ _ _ _ _ hv => by cases hv
      touched := fun k hk => absurd hk not_mem_nil
      tasksTouched := fun _ h => absurd h not_mem_nil
      saved := nofun }

theorem items_append (queue queue' : List Item) :
    items (queue ++ queue') scope = items queue scope ++ items queue' scope := filterMap_append

theorem items_write_self (task : Task) (queue : List Item) :
    items (.write task :: queue) task.scope = some task :: items queue task.scope := by
  simp [items]

theorem items_write_of_ne {task : Task} (h : task.scope ≠ scope) (queue : List Item) :
    items (.write task :: queue) scope = items queue scope := by
  simp [items, h]

@[simp] theorem setScope_self (s : ScopeState) : (σ.setScope scope s).scopes scope = s := if_pos rfl

theorem setScope_of_ne (s : ScopeState) {i : Scope} (h : i ≠ scope) :
    (σ.setScope scope s).scopes i = σ.scopes i := if_neg h

theorem setScope_setScope (s s' : ScopeState) :
    ((σ.setScope scope s).setScope scope s').scopes = (σ.setScope scope s').scopes := by
  funext i
  simp only [setScope]
  split <;> rfl

theorem set_cases (σ : State) (setter : Setter) : σ.set setter = σ ∨
    ∃ edits memory, edits = setter.edits (σ.scopes setter.scope).memory σ.settings ∧
      edits.foldlM Edit.apply (σ.scopes setter.scope).memory = some memory ∧
      ((σ.scopes setter.scope).loadError = true ∧ (σ.set setter).queue = σ.queue ∧ (σ.set setter).scopes =
            (σ.setScope setter.scope ((σ.scopes setter.scope).edit memory edits)).scopes ∨
        (σ.scopes setter.scope).loadError = false ∧ (σ.set setter).queue = σ.queue ++
            [Item.write ⟨setter.scope, memory, ((σ.scopes setter.scope).edit memory edits).marks⟩] ∧
          (σ.set setter).scopes =
            (σ.setScope setter.scope (((σ.scopes setter.scope).edit memory edits).record edits)).scopes) := by
  unfold State.set
  dsimp only
  split
  · exact .inl rfl
  · rename_i memory hm
    split
    · exact .inl rfl
    · refine .inr ⟨_, memory, rfl, hm, ?_⟩
      have herror : ((σ.scopes setter.scope).edit memory
          (setter.edits (σ.scopes setter.scope).memory σ.settings)).loadError =
            (σ.scopes setter.scope).loadError := rfl
      unfold State.save
      simp only [setScope_self, herror]
      split
      · rename_i he
        exact .inl ⟨he, rfl, rfl⟩
      · rename_i he
        exact .inr ⟨by simpa using he, rfl, setScope_setScope _ _⟩

theorem Inv.of_scope (h : σ.Inv) (scope : Scope) (s : ScopeState) (hscopes : σ'.scopes = (σ.setScope scope s).scopes)
    (hs : s.Inv (items σ'.queue scope)) (hne : ∀ i ≠ scope, items σ'.queue i = items σ.queue i) : σ'.Inv := by
  intro i
  rw [hscopes]
  by_cases hi : i = scope
  · subst hi
    rw [setScope_self]
    exact hs
  · rw [setScope_of_ne s hi, hne i hi]
    exact h i

theorem Inv.set (h : σ.Inv) {setter : Setter} (hn : setter.Named) : (σ.set setter).Inv := by
  rcases set_cases σ setter with heq | ⟨edits, memory, hedits, happly, ⟨he, hq, hs⟩ | ⟨he, hq, hs⟩⟩
  · rw [heq]
    exact h
  · have hproper : ∀ e ∈ edits, e.Proper := hedits ▸ Setter.edits_proper hn _ _
    refine h.of_scope _ _ hs ?_ fun i _ => by rw [hq]
    rw [hq]
    exact (h setter.scope).refuse he hproper happly
  · have hproper : ∀ e ∈ edits, e.Proper := hedits ▸ Setter.edits_proper hn _ _
    refine h.of_scope _ _ hs ?_ ?_
    · rw [hq, items_append, items_write_self]
      exact (h setter.scope).accept he hproper happly rfl rfl
    · intro i hi
      rw [hq, items_append, items_write_of_ne (Ne.symm hi)]
      exact append_nil _

theorem reloadScope_scopes (σ : State) (scope : Scope) (reads : Bool) :
    (σ.reloadScope scope reads).scopes = (σ.setScope scope ((σ.scopes scope).reload reads)).scopes ∧
      (σ.reloadScope scope reads).queue = σ.queue := by
  unfold reloadScope
  dsimp only
  split <;> exact ⟨rfl, rfl⟩

theorem Inv.step {a : Action} (h : σ.Inv) (hg : Guard σ a) (hstep : Settings.step σ a = some σ') : σ'.Inv := by
  cases a with
  | set setter =>
    cases hstep
    exact h.set hg
  | override overrides =>
    cases hstep
    exact h
  | callReload =>
    cases hstep
    intro scope
    have hitems : items (σ.queue ++ [Item.reload]) scope = items σ.queue scope ++ [none] := items_append _ _
    rw [hitems]
    exact (h scope).callReload
  | write =>
    simp only [Settings.step] at hstep
    split at hstep
    · rename_i task queue hq
      obtain ⟨after, hp, rfl⟩ := map_eq_some_iff.mp hstep
      refine h.of_scope task.scope _ rfl ?_ ?_
      · have hs := h task.scope
        rw [hq, items_write_self] at hs
        exact hs.write hp
      · intro i hi
        rw [hq, items_write_of_ne (Ne.symm hi)]
        rfl
    · cases hstep
  | fail =>
    simp only [Settings.step] at hstep
    split at hstep
    · rename_i task queue hq
      cases hstep
      simp only [Guard, hq] at hg
      refine h.of_scope task.scope _ rfl ?_ ?_
      · have hs := h task.scope
        rw [hq, items_write_self] at hs
        exact hs.fail hg
      · intro i hi
        rw [hq, items_write_of_ne (Ne.symm hi)]
        rfl
    · cases hstep
  | reload reads =>
    simp only [Settings.step] at hstep
    split at hstep
    · rename_i queue hq
      cases hstep
      have hreloaded : ∀ scope, ((σ.scopes scope).reload (reads scope)).Inv (items queue scope) := by
        intro scope
        have hs := h scope
        rw [hq] at hs
        exact hs.reloaded _
      intro scope
      obtain ⟨hproject, -⟩ := reloadScope_scopes (σ.reloadScope .global (reads .global)) .project (reads .project)
      obtain ⟨hglobal, -⟩ := reloadScope_scopes σ .global (reads .global)
      have hscopes : (State.merge { (σ.reloadScope .global (reads .global)).reloadScope .project (reads .project)
          with queue := queue }).scopes scope = (σ.scopes scope).reload (reads scope) := by
        show ((σ.reloadScope .global (reads .global)).reloadScope .project (reads .project)).scopes scope = _
        rw [hproject]
        cases scope with
        | global =>
          rw [setScope_of_ne _ (by decide), hglobal, setScope_self]
        | project =>
          rw [setScope_self, hglobal, setScope_of_ne _ (by decide)]
      rw [hscopes]
      exact hreloaded scope
    · cases hstep
  | other scope content =>
    cases hstep
    exact h.of_scope scope _ rfl ((h scope).overwrite content) fun _ _ => rfl

/-- In every run whose failing writes leave their keys to a later write, each file holds what was set, and what was
not set is as others left it. -/
theorem kept_of_writes (files : Scope → Option FileContent)
    (h : Transition.GuardedRuns Settings.step Guard (init files) σ) (scope : Scope) : σ.Kept scope :=
  (h.keeps (P := Inv) (init_inv files) fun _ _ _ hinv hg hstep => hinv.step hg hstep).kept scope

end State

section Runs

instance (setter : Setter) : Decidable setter.Named := by
  cases setter <;> first | exact instDecidableEqBool _ true | exact .isTrue trivial

instance (s : ScopeState) (t : Task) (items : List (Option Task)) : Decidable (s.Retried t items) :=
  inferInstanceAs (Decidable (∀ k ∈ t.marks.keys, _ ∨ ∃ t' ∈ Settings.tasks items, k ∈ t'.marks.keys))

instance (σ : State) (a : Action) : Decidable (State.Guard σ a) :=
  match a with
  | .set setter => inferInstanceAs (Decidable setter.Named)
  | .fail =>
    match h : σ.queue with
    | .write task :: queue =>
      decidable_of_iff ((σ.scopes task.scope).Retried task (State.items queue task.scope)) (by rw [State.Guard, h])
    | [] => .isTrue (by simp only [State.Guard, h])
    | .reload :: queue => .isTrue (by simp only [State.Guard, h])
  | .override _ | .callReload | .write | .reload _ | .other .. => .isTrue trivial

/-- The write of the theme fails and is made up for by that of the transport, after somebody else's. -/
def retriedWrite : List Action :=
  [.set (.setTheme "light"), .fail, .set (.setTransport "sse"),
    .other .global (some (.settings (.ofList [("theme", .string "dark"), ("quietStartup", .bool true)]))), .write]

/-- Both writes are queued when the first succeeds, the second fails, and a third succeeds. -/
def forgottenWrite : List Action :=
  [.set (.setTheme "light"), .set (.setTransport "sse"), .write, .fail, .set (.setQuietStartup true), .write]

namespace State

theorem kept_of_retriedWrite : ∃ σ : State, σ.Kept .global ∧
    fileValue (σ.scopes .global).file ("theme", none) = some (.string "light") ∧
    fileValue (σ.scopes .global).file ("transport", none) = some (.string "sse") ∧
    fileValue (σ.scopes .global).file ("quietStartup", none) = some (.bool true) := by
  have hrun : ((Transition.guardedSteps Settings.step Guard retriedWrite (init fun _ => none)).any fun σ =>
      decide (fileValue (σ.scopes .global).file ("theme", none) = some (.string "light") ∧
        fileValue (σ.scopes .global).file ("transport", none) = some (.string "sse") ∧
        fileValue (σ.scopes .global).file ("quietStartup", none) = some (.bool true))) = true := by
    decide
  obtain ⟨σ, hrun, hfile⟩ := Transition.exists_guardedRun hrun
  exact ⟨σ, kept_of_writes _ hrun .global, of_decide_eq_true hfile⟩

/-- The last write succeeded and nothing is queued, but the transport is not in the file. -/
theorem forgotten : ∃ σ : State, Transition.Runs Settings.step (init fun _ => none) σ ∧ ¬ σ.Kept .global := by
  have hrun : ((Transition.steps Settings.step forgottenWrite (init fun _ => none)).any fun σ =>
      σ.queue.isEmpty && (match (σ.scopes .global).lastWrite with | .saved _ _ => true | _ => false) &&
        decide ((σ.scopes .global).latest ("transport", none) = some (some (.string "sse")) ∧
          fileValue (σ.scopes .global).file ("transport", none) = none)) = true := by
    decide
  obtain ⟨σ, hrun, htest⟩ := Transition.exists_run hrun
  refine ⟨σ, hrun, ?_⟩
  intro hkept
  rw [Bool.and_eq_true, Bool.and_eq_true, List.isEmpty_iff, decide_eq_true_eq] at htest
  obtain ⟨⟨hqueue, hlast⟩, hlatest, hfile⟩ := htest
  have hsaved : (σ.scopes .global).Saved := by
    cases hw : (σ.scopes .global).lastWrite with
    | saved before after => exact ⟨before, after, hw⟩
    | none =>
      rw [hw] at hlast
      cases hlast
    | failed =>
      rw [hw] at hlast
      cases hlast
  have hvalue := hkept.set hqueue hsaved _ _ hlatest
  rw [hfile] at hvalue
  cases hvalue

end State

end Runs

end Settings
end Core
end RePrime
