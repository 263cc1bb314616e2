import Mathlib.Algebra.Order.Group.Defs
import Mathlib.Algebra.Order.BigOperators.Group.List
import Mathlib.Tactic.Abel
import RePrime.Session.Durable

/-!
# RePrime.Session.UsageAccounting

What a session has spent itself, from a scan of its file (`foldSessionScanLine`, `snapshotSessionInfo`, `usage.ts`).

A child's usage is added to the usage of an assistant message, and an attribution entry says so. The file has the
message as it was first written, or with what it had been given when the file was last rewritten.

* `FileForm`: the lines of a file for a history, rewritten any number of times on the way.
* `scanned_form`: the scan sees the settled history, whatever the form, and whatever the arithmetic of the numbers.
* `scanned_usage`: over exact numbers it is the sum of the session's own usages.
* `ReachableBy.scanUsage`: the file of a manager is such a form in every run without a torn append.
-/

namespace RePrime
namespace Session

open List
open Json

/-! ## Amounts -/

/-- A usage with its numbers read. -/
structure Amounts (K : Type) where
  input : K
  output : K
  cacheRead : K
  cacheWrite : K
  totalTokens : K
  costInput : K
  costOutput : K
  costCacheRead : K
  costCacheWrite : K
  costTotal : K

/-- How the numbers of a file are read. -/
structure Reading (K : Type) where
  int : Int → K
  number : Json.Number → K

def Reading.usage {K : Type} (R : Reading K) (u : Usage) : Amounts K :=
  { input := R.int u.input
    output := R.int u.output
    cacheRead := R.int u.cacheRead
    cacheWrite := R.int u.cacheWrite
    totalTokens := R.int u.totalTokens
    costInput := R.number u.cost.input
    costOutput := R.number u.cost.output
    costCacheRead := R.number u.cost.cacheRead
    costCacheWrite := R.number u.cost.cacheWrite
    costTotal := R.number u.cost.total }

namespace Amounts

variable {K : Type}

def zipWith (f : K → K → K) (a b : Amounts K) : Amounts K :=
  { input := f a.input b.input
    output := f a.output b.output
    cacheRead := f a.cacheRead b.cacheRead
    cacheWrite := f a.cacheWrite b.cacheWrite
    totalTokens := f a.totalTokens b.totalTokens
    costInput := f a.costInput b.costInput
    costOutput := f a.costOutput b.costOutput
    costCacheRead := f a.costCacheRead b.costCacheRead
    costCacheWrite := f a.costCacheWrite b.costCacheWrite
    costTotal := f a.costTotal b.costTotal }

end Amounts

section Arithmetic

variable {K : Type} [Zero K] [Add K] [Sub K] [Max K]

def emptyUsage : Amounts K :=
  { input := 0
    output := 0
    cacheRead := 0
    cacheWrite := 0
    totalTokens := 0
    costInput := 0
    costOutput := 0
    costCacheRead := 0
    costCacheWrite := 0
    costTotal := 0 }

def addAssistantUsage : Amounts K → Amounts K → Amounts K := .zipWith (· + ·)

def subtractAssistantUsage : Amounts K → Amounts K → Amounts K := .zipWith fun total usage => max 0 (total - usage)

/-- `attributeChildUsage` (`agent-session.ts`): the usage of an assistant message with a child's added. The tokens of
its context stay. -/
def attributeChildUsage [DecidableEq K] (parentUsage childUsage : Amounts K) : Amounts K :=
  let parentContextTokens :=
    if parentUsage.totalTokens ≠ 0 then parentUsage.totalTokens
    else parentUsage.input + parentUsage.output + parentUsage.cacheRead + parentUsage.cacheWrite
  { addAssistantUsage parentUsage childUsage with totalTokens := parentContextTokens }

structure SessionUsageSummary (K : Type) where
  inputTokens : K
  outputTokens : K
  cost : K

def sessionUsageSummaryFrom [DecidableEq K] (usage : Amounts K) : Option (SessionUsageSummary K) :=
  let inputTokens := usage.input + usage.cacheRead + usage.cacheWrite
  if inputTokens = 0 ∧ usage.output = 0 ∧ usage.costTotal = 0 then none
  else some { inputTokens, outputTokens := usage.output, cost := usage.costTotal }

/-- Usages added up in order. -/
def totalUsage (usages : List (Amounts K)) : Amounts K := usages.foldl addAssistantUsage emptyUsage

/-! ## The scan -/

/-- The fields that the usage of the result depends on. -/
structure SessionScanAccumulator (K : Type) where
  header : Option SessionHeader
  invalid : Bool
  assistantUsageById : OrderedMap String (Amounts K)
  attributedChildUsage : Amounts K
  summarizationUsage : Amounts K

def createSessionScanAccumulator : SessionScanAccumulator K :=
  { header := none
    invalid := false
    assistantUsageById := .empty
    attributedChildUsage := emptyUsage
    summarizationUsage := emptyUsage }

/-- The usage of a summary that a model wrote. -/
def SessionEntry.summarizationUsage? (e : SessionEntry) : Option Usage :=
  match e.body with
  | .compaction c => c.usage
  | .branchSummary b => b.usage
  | _ => none

variable (R : Reading K)

def foldAttribution (acc : SessionScanAccumulator K) (a : ChildUsageAttribution) : SessionScanAccumulator K :=
  if acc.assistantUsageById.has a.targetId = true then
    { acc with
      assistantUsageById := acc.assistantUsageById.set a.targetId (R.usage a.aggregateUsage)
      attributedChildUsage := addAssistantUsage acc.attributedChildUsage (R.usage a.childUsage) }
  else acc

/-- The entry of a line. Without a header it has to be one. -/
def foldEntry (acc : SessionScanAccumulator K) (f : FileEntry) : SessionScanAccumulator K :=
  match f with
  | .session h => { acc with header := acc.header.or (some h) }
  | .entry e =>
    let acc :=
      match e.attribution? with
      | some a => foldAttribution R acc a
      | none => acc
    let acc :=
      match e.summarizationUsage? with
      | some u => { acc with summarizationUsage := addAssistantUsage acc.summarizationUsage (R.usage u) }
      | none => acc
    if acc.header.isNone then { acc with invalid := true }
    else
      match e.assistant? with
      | some m => { acc with assistantUsageById := acc.assistantUsageById.set e.id (R.usage m.usage) }
      | none => acc

/-- `SESSION_LIST_PARSE_MAX_LINE_CHARS` -/
def sessionListParseMaxLineChars : Nat := 1024 * 1024

/-- A line that is not parsed for its length. -/
def isOversized (line : Bytes) : Bool := sessionListParseMaxLineChars < Text.length (Utf8.decode line)

def foldSessionScanLine (acc : SessionScanAccumulator K) (line : Bytes) : SessionScanAccumulator K :=
  if isOversized line then acc
  else
    match parseLine line with
    | some entry => foldEntry R acc entry
    | none => acc

/-- `scanSessionLines`: it stops at a first entry that is no header. -/
def scanSessionLines (acc : SessionScanAccumulator K) : List Bytes → SessionScanAccumulator K
  | [] => acc
  | line :: lines =>
    let acc := foldSessionScanLine R acc line
    if acc.invalid then acc else scanSessionLines acc lines

/-- The usage that `snapshotSessionInfo` comes to; `none` where the file is no session. -/
def snapshotUsage (persistent : SessionScanAccumulator K) (tornTail : Bytes) : Option (Amounts K) :=
  let acc :=
    if tornTail ≠ [] ∧ persistent.invalid = false then foldSessionScanLine R persistent tornTail else persistent
  if acc.invalid ∨ acc.header.isNone then none
  else
    let usageTotal := totalUsage (acc.assistantUsageById.entries.map Prod.snd)
    let usageTotal := addAssistantUsage usageTotal acc.summarizationUsage
    some (subtractAssistantUsage usageTotal acc.attributedChildUsage)

/-- The usage of the session in a file. -/
def scanUsage (buffer : Bytes) : Option (Amounts K) :=
  let lines := Lines.feed 10 [] buffer
  snapshotUsage R (scanSessionLines R createSessionScanAccumulator lines.1) lines.2

end Arithmetic

/-! ## Histories -/

/-- Entries as they come to a session: new ids, and attributions to assistant messages that it has. -/
inductive History : List SessionEntry → Prop where
  | nil : History []
  | append {es : List SessionEntry} {e : SessionEntry} (h : History es) (fresh : e.id ∉ es.map SessionEntry.id)
      (target : ∀ a, e.attribution? = some a → ∃ t ∈ es, t.id = a.targetId ∧ t.assistant?.isSome = true) :
      History (es ++ [e])

/-- The lines for a history: each entry is appended, and at any time the file may be rewritten from memory. -/
inductive FileForm : List SessionEntry → List SessionEntry → Prop where
  | start : FileForm [] []
  | append {hist lines : List SessionEntry} (e : SessionEntry) (h : FileForm hist lines) :
      FileForm (hist ++ [e]) (lines ++ [e])
  | rewrite {hist lines : List SessionEntry} (h : FileForm hist lines) : FileForm hist (settle hist)

theorem fileForm_appended (hist : List SessionEntry) : FileForm hist hist := by
  induction hist using reverseRecOn with
  | nil => exact .start
  | append_singleton es e ih => exact .append e ih

theorem fileForm_rewritten (hist : List SessionEntry) : FileForm hist (settle hist) :=
  .rewrite (fileForm_appended hist)

variable {es : List SessionEntry}

theorem History.targets (h : History es) : ∀ t ∈ targetIds es, t ∈ es.map SessionEntry.id := by
  induction h with
  | nil => simp [targetIds, attributions]
  | @append es e h fresh target ih =>
    intro t ht
    rw [targetIds, attributions_append, map_append, mem_append] at ht
    rw [map_append]
    refine mem_append_left _ ?_
    rcases ht with ht | ht
    · exact ih t ht
    · cases ha : e.attribution? with
      | none => simp [ha] at ht
      | some a =>
        obtain ⟨x, hx, hid, -⟩ := target a ha
        have heq : t = a.targetId := by simpa [ha] using ht
        rw [heq, ← hid]
        exact mem_map_of_mem hx

theorem History.nodup (h : History es) : (es.map SessionEntry.id).Nodup := by
  induction h with
  | nil => exact nodup_nil
  | append h fresh target ih =>
    rw [map_append, map_singleton, ← concat_eq_append]
    exact ih.concat fresh

variable {e : SessionEntry}

theorem History.settle_append (h : History es)
    (fresh : e.id ∉ es.map SessionEntry.id) : settle (es ++ [e]) = recorded (settle es) e :=
  Session.settle_append fun hmem => fresh (h.targets _ hmem)

theorem History.settled (h : History es) : Settled (settle es) := by
  induction h with
  | nil => exact settled_nil
  | append h fresh target ih =>
    rw [h.settle_append fresh]
    refine ih.recorded ?_ fun a ha => ?_
    · rwa [settle, map_id_attributedBy]
    · obtain ⟨t, ht, hid, -⟩ := target a ha
      rw [settle, map_id_attributedBy, ← hid]
      exact mem_map_of_mem ht

theorem isAssistant_attributedBy (as : List ChildUsageAttribution) (e : SessionEntry) :
    (attributedBy as e).assistant?.isSome = e.assistant?.isSome := by
  induction as generalizing e with
  | nil => rfl
  | cons a as ih =>
    rw [attributedBy_cons, ih, attributed]
    split
    · exact withUsage_isAssistant _ e
    · rfl

theorem History.map (h : History es) (as : List ChildUsageAttribution) : History (es.map (attributedBy as)) := by
  induction h with
  | nil => exact .nil
  | @append es e h fresh target ih =>
    rw [map_append, map_singleton]
    refine .append ih ?_ fun a ha => ?_
    · rwa [map_id_attributedBy, attributedBy_id]
    · rw [attribution?_attributedBy] at ha
      obtain ⟨t, ht, hid, hassistant⟩ := target a ha
      refine ⟨attributedBy as t, mem_map_of_mem ht, by rw [attributedBy_id, hid], ?_⟩
      rw [isAssistant_attributedBy, hassistant]

/-- Whatever the form of the file, it settles to the history, settled. -/
theorem FileForm.settle_eq {hist lines : List SessionEntry} (h : FileForm hist lines) (hh : History hist) :
    History lines ∧ settle lines = settle hist ∧ lines.map SessionEntry.id = hist.map SessionEntry.id := by
  induction h with
  | start => exact ⟨hh, rfl, rfl⟩
  | @append hist lines e h ih =>
    generalize hfull : hist ++ [e] = full at hh
    cases hh with
    | nil => simp at hfull
    | append hh fresh target =>
      obtain ⟨rfl, he⟩ := append_inj' hfull rfl
      cases he
      obtain ⟨hlines, hsettle, hids⟩ := ih hh
      have hfresh : e.id ∉ lines.map SessionEntry.id := by rwa [hids]
      refine ⟨.append hlines hfresh fun a ha => ?_, ?_, ?_⟩
      · obtain ⟨t, ht, hid, hassistant⟩ := target a ha
        have hmem : attributedBy (attributions hist) t ∈ settle lines := hsettle ▸ mem_map_of_mem ht
        obtain ⟨t', ht', heq⟩ := mem_map.mp hmem
        refine ⟨t', ht', ?_, ?_⟩
        · rw [← hid, ← attributedBy_id (attributions lines) t', heq, attributedBy_id]
        · rw [← hassistant, ← isAssistant_attributedBy (attributions lines) t', heq, isAssistant_attributedBy]
      · rw [hlines.settle_append hfresh, hh.settle_append fresh, hsettle]
      · rw [map_append, map_append, hids]
  | rewrite h ih => exact ⟨hh.map _, hh.settled.fixed, map_id_attributedBy _ _⟩

/-! ## What the scan sees -/

/-- The usages of the assistant messages, with the ids of their entries. -/
def assistantUsages (es : List SessionEntry) : List (String × Usage) :=
  es.filterMap fun e => e.assistant?.map fun m => (e.id, m.usage)

def summarizationUsages (es : List SessionEntry) : List Usage := es.filterMap SessionEntry.summarizationUsage?

theorem assistantUsages_append (es : List SessionEntry) (e : SessionEntry) :
    assistantUsages (es ++ [e]) = assistantUsages es ++ (e.assistant?.map fun m => (e.id, m.usage)).toList := by
  rw [assistantUsages, assistantUsages, filterMap_append]
  cases h : e.assistant? <;> simp [h]

theorem summarizationUsages_append (es : List SessionEntry) (e : SessionEntry) :
    summarizationUsages (es ++ [e]) = summarizationUsages es ++ e.summarizationUsage?.toList := by
  rw [summarizationUsages, summarizationUsages, filterMap_append]
  cases h : e.summarizationUsage? <;> simp [h]

theorem key_assistantUsages {k : String} :
    k ∈ (assistantUsages es).map Prod.fst ↔ ∃ e ∈ es, e.id = k ∧ e.assistant?.isSome = true := by
  simp only [assistantUsages, mem_map, mem_filterMap, Option.map_eq_some_iff, Option.isSome_iff_exists]
  constructor
  · rintro ⟨p, ⟨e, he, m, hm, rfl⟩, rfl⟩
    exact ⟨e, he, rfl, m, hm⟩
  · rintro ⟨e, he, rfl, m, hm⟩
    exact ⟨(e.id, m.usage), ⟨e, he, m, hm, rfl⟩, rfl⟩

theorem assistant?_withUsage (u : Usage) (e : SessionEntry) :
    (e.withUsage u).assistant? = e.assistant?.map fun m => { m with usage := u } := by
  unfold SessionEntry.withUsage
  split
  · rename_i m hb
    simp [SessionEntry.assistant?, hb, AgentMessage.assistant?]
  · rename_i hb
    cases h : e.assistant? with
    | none => rfl
    | some m =>
      unfold SessionEntry.assistant? AgentMessage.assistant? at h
      split at h
      · rename_i body hbody
        split at h
        · exact absurd hbody (hb _)
        · cases h
      · cases h

/-- An attribution sets the usage of its target and leaves it in its place. -/
theorem assistantUsages_attributed (t : String) (u : Usage) (es : List SessionEntry) :
    assistantUsages (es.map (attributed t u)) = OrderedMap.replace t u (assistantUsages es) := by
  rw [assistantUsages, assistantUsages, OrderedMap.replace, filterMap_map, map_filterMap]
  refine filterMap_congr fun e _ => ?_
  rw [Function.comp_apply, attributed_id, Option.map_map]
  by_cases ht : e.id = t
  · rw [attributed, if_pos ht, assistant?_withUsage, Option.map_map]
    simp [Function.comp_def, ht]
  · rw [attributed, if_neg ht]
    simp [Function.comp_def, ht]

theorem summarizationUsage?_attributed (t : String) (u : Usage) (e : SessionEntry) :
    (attributed t u e).summarizationUsage? = e.summarizationUsage? := by
  unfold attributed
  split
  · unfold SessionEntry.withUsage
    split
    · rename_i m hb
      simp [SessionEntry.summarizationUsage?, hb]
    · rfl
  · rfl

theorem summarizationUsages_attributed (t : String) (u : Usage) (es : List SessionEntry) :
    summarizationUsages (es.map (attributed t u)) = summarizationUsages es := by
  rw [summarizationUsages, summarizationUsages, filterMap_map]
  exact filterMap_congr fun e _ => summarizationUsage?_attributed t u e

theorem body_of_attribution {a : ChildUsageAttribution} (h : e.attribution? = some a) :
    e.body = .childUsageAttributed a := by
  unfold SessionEntry.attribution? at h
  split at h
  · rename_i hb
    rw [hb, Option.some.inj h]
  · cases h

section Scan

variable {K : Type} [Add K] {R : Reading K}

theorem foldSessionScanLine_lineOf {f : FileEntry} (hf : isOversized (lineOf f) = false)
    (acc : SessionScanAccumulator K) : foldSessionScanLine R acc (lineOf f) = foldEntry R acc f := by
  rw [foldSessionScanLine, hf, if_neg Bool.false_ne_true, parseLine_lineOf]

variable {acc : SessionScanAccumulator K}

theorem scanSessionLines_append {front : List Bytes}
    (hvalid : (scanSessionLines R acc front).invalid = false) (line : Bytes) :
    scanSessionLines R acc (front ++ [line]) = foldSessionScanLine R (scanSessionLines R acc front) line := by
  induction front generalizing acc with
  | nil => simp [scanSessionLines]
  | cons first front ih =>
    simp only [scanSessionLines] at hvalid
    simp only [cons_append, scanSessionLines]
    by_cases hinvalid : (foldSessionScanLine R acc first).invalid = true
    · rw [if_pos hinvalid, hinvalid] at hvalid
      cases hvalid
    · rw [if_neg hinvalid] at hvalid
      rw [if_neg hinvalid, if_neg hinvalid]
      exact ih hvalid

variable [Zero K]

theorem totalUsage_append (us : List (Amounts K)) (u : Amounts K) :
    totalUsage (us ++ [u]) = addAssistantUsage (totalUsage us) u := by
  rw [totalUsage, totalUsage, foldl_append]
  rfl

/-- The accumulator after the lines of a list of entries, as the settled entries. -/
structure Scanned (R : Reading K) (h : SessionHeader) (es : List SessionEntry) (acc : SessionScanAccumulator K) :
    Prop where
  header : acc.header = some h
  invalid : acc.invalid = false
  usages : acc.assistantUsageById.entries = (assistantUsages es).map fun p => (p.1, R.usage p.2)
  attributed : acc.attributedChildUsage = totalUsage ((attributions es).map fun a => R.usage a.childUsage)
  summarization : acc.summarizationUsage = totalUsage ((summarizationUsages es).map R.usage)

variable {h : SessionHeader}

theorem Scanned.has {es : List SessionEntry} (hs : Scanned R h es acc) {k : String} :
    acc.assistantUsageById.has k = true ↔ ∃ e ∈ es, e.id = k ∧ e.assistant?.isSome = true := by
  rw [← key_assistantUsages, OrderedMap.has, decide_eq_true_eq, OrderedMap.keys, hs.usages, map_map]
  rfl

/-- One line does to the accumulator what the append has done to the memory. -/
theorem Scanned.step {es : List SessionEntry}
    (hs : Scanned R h es acc) {e : SessionEntry} (fresh : e.id ∉ es.map SessionEntry.id)
    (target : ∀ a, e.attribution? = some a → ∃ t ∈ es, t.id = a.targetId ∧ t.assistant?.isSome = true) :
    Scanned R h (recorded es e) (foldEntry R acc (.entry e)) := by
  cases ha : e.attribution? with
  | some a =>
    have hbody := body_of_attribution ha
    have hhas : acc.assistantUsageById.has a.targetId = true := hs.has.mpr (target a ha)
    have hassistant : e.assistant? = none := by rw [SessionEntry.assistant?, hbody]
    have hsummary : e.summarizationUsage? = none := by rw [SessionEntry.summarizationUsage?, hbody]
    have hfold : foldEntry R acc (.entry e) = { acc with
          assistantUsageById := acc.assistantUsageById.set a.targetId (R.usage a.aggregateUsage)
          attributedChildUsage := addAssistantUsage acc.attributedChildUsage (R.usage a.childUsage) } := by
      simp only [foldEntry, ha, hassistant, hsummary, foldAttribution, hhas, if_true, hs.header]
      rfl
    have hrecorded : recorded es e = es.map (Session.attributed a.targetId a.aggregateUsage) ++ [e] := by
      rw [recorded, ha]
      rfl
    rw [hfold, hrecorded]
    refine ⟨hs.header, hs.invalid, ?_, ?_, ?_⟩
    · dsimp only
      rw [OrderedMap.set_of_has hhas, hs.usages, assistantUsages_append, hassistant, Option.map_none,
        Option.toList_none, append_nil, assistantUsages_attributed, OrderedMap.replace, OrderedMap.replace,
        map_map, map_map]
      refine map_congr_left fun p _ => ?_
      by_cases hp : p.1 = a.targetId <;> simp [hp]
    · have hmap : attributions (es.map (Session.attributed a.targetId a.aggregateUsage)) = attributions es :=
        attributions_map [a] es
      dsimp only
      rw [attributions_append, hmap, ha, Option.toList_some, map_append, map_singleton, totalUsage_append,
        hs.attributed]
    · dsimp only
      rw [summarizationUsages_append, summarizationUsages_attributed, hsummary, Option.toList_none, append_nil,
        hs.summarization]
  | none =>
    rw [recorded_of_none ha]
    have hnot : acc.assistantUsageById.has e.id = false := by
      rw [Bool.eq_false_iff, ne_eq, hs.has]
      rintro ⟨x, hx, hid, -⟩
      exact fresh (hid ▸ mem_map_of_mem hx)
    refine ⟨?_, ?_, ?_, ?_, ?_⟩
    · simp only [foldEntry, ha]
      cases e.summarizationUsage? <;> cases e.assistant? <;> simp [hs.header]
    · simp only [foldEntry, ha]
      cases e.summarizationUsage? <;> cases e.assistant? <;> simp [hs.header, hs.invalid]
    · simp only [foldEntry, ha, assistantUsages_append]
      cases e.summarizationUsage? <;> cases e.assistant? <;>
        simp [hs.header, hs.usages, OrderedMap.set_of_not_has hnot]
    · simp only [foldEntry, ha, attributions_append]
      cases e.summarizationUsage? <;> cases e.assistant? <;> simp [hs.header, hs.attributed]
    · simp only [foldEntry, ha, summarizationUsages_append]
      cases hsum : e.summarizationUsage? <;> cases e.assistant? <;>
        simp [hs.header, hs.summarization, totalUsage_append]

theorem scanSessionLines_form {lines : List SessionEntry} (hh : History lines)
    (hfits : ∀ f ∈ FileEntry.session h :: lines.map .entry, isOversized (lineOf f) = false) :
    Scanned R h (settle lines)
      (scanSessionLines R createSessionScanAccumulator ((FileEntry.session h :: lines.map .entry).map lineOf)) := by
  induction hh with
  | nil =>
    simp only [map_nil, map_cons, scanSessionLines, foldSessionScanLine_lineOf (hfits _ mem_cons_self)]
    exact ⟨rfl, rfl, rfl, rfl, rfl⟩
  | @append es e hh fresh target ih =>
    have hprefix : ∀ f ∈ FileEntry.session h :: es.map .entry, isOversized (lineOf f) = false := by
      intro f hf
      refine hfits f ?_
      rw [map_append, ← cons_append]
      exact mem_append_left _ hf
    have hscanned := ih hprefix
    have hlast : isOversized (lineOf (.entry e)) = false := hfits _ (by simp)
    rw [map_append, ← cons_append, map_append, map_singleton, map_singleton,
      scanSessionLines_append hscanned.invalid, foldSessionScanLine_lineOf hlast, hh.settle_append fresh]
    refine hscanned.step ?_ fun a ha => ?_
    · rwa [settle, map_id_attributedBy]
    · obtain ⟨t, ht, hid, hassistant⟩ := target a ha
      refine ⟨_, mem_map_of_mem ht, by rw [attributedBy_id, hid], ?_⟩
      rw [isAssistant_attributedBy, hassistant]

/-- What the scan of a settled list of entries comes to. -/
def spentBy [Sub K] [Max K] (R : Reading K) (es : List SessionEntry) : Amounts K :=
  subtractAssistantUsage
    (addAssistantUsage (totalUsage ((assistantUsages es).map fun p => R.usage p.2))
      (totalUsage ((summarizationUsages es).map R.usage)))
    (totalUsage ((attributions es).map fun a => R.usage a.childUsage))

/-- **The scan sees the settled history**, whatever the form of the file and whatever the arithmetic. -/
theorem scanned_form [Sub K] [Max K] (R : Reading K) (h : SessionHeader) {hist lines : List SessionEntry}
    (hh : History hist) (hform : FileForm hist lines)
    (hfits : ∀ f ∈ FileEntry.session h :: lines.map .entry, isOversized (lineOf f) = false) :
    scanUsage R (contentOf (.session h :: lines.map .entry)) = some (spentBy R (settle hist)) := by
  obtain ⟨hlines, hsettle, -⟩ := hform.settle_eq hh
  have hs := @scanSessionLines_form K _ R _ h lines hlines hfits
  rw [hsettle] at hs
  have hvalues := congrArg (List.map Prod.snd) hs.usages
  rw [map_map] at hvalues
  rw [scanUsage, feed_contentOf (cons_ne_nil _ _)]
  simp only [snapshotUsage, ne_eq, not_true_eq_false, false_and, if_false, hs.invalid, hs.header, Option.isNone_some,
    Bool.false_eq_true, or_self, hvalues, hs.summarization, hs.attributed]
  rfl

end Scan

/-! ## Exact numbers -/

/-- The amounts that the summary shows. -/
inductive SpendField where
  | input | output | cacheRead | cacheWrite | cost
  deriving DecidableEq, Repr

def SpendField.of {K : Type} : SpendField → Amounts K → K
  | .input => Amounts.input
  | .output => Amounts.output
  | .cacheRead => Amounts.cacheRead
  | .cacheWrite => Amounts.cacheWrite
  | .cost => Amounts.costTotal

variable {K : Type}

/-- One usage for another in a list: the sum changes by the difference. -/
theorem sum_replace [AddCommMonoid K] (amount : Usage → K) {l : List (String × Usage)}
    (hn : (l.map Prod.fst).Nodup) {t : String} {u v : Usage} (hmem : (t, v) ∈ l) :
    ((OrderedMap.replace t u l).map fun p => amount p.2).sum + amount v =
      (l.map fun p => amount p.2).sum + amount u := by
  induction l with
  | nil => cases hmem
  | cons p l ih =>
    rw [map_cons, nodup_cons] at hn
    rw [OrderedMap.replace, map_cons, map_cons, sum_cons, map_cons, sum_cons]
    rcases mem_cons.mp hmem with rfl | hmem
    · have hrest : OrderedMap.replace t u l = l := by
        rw [OrderedMap.replace]
        refine (map_congr_left fun q hq => if_neg fun hqt => hn.1 ?_).trans (map_id' l)
        exact mem_map.mpr ⟨q, hq, hqt⟩
      rw [OrderedMap.replace] at hrest
      rw [hrest, if_pos rfl]
      abel
    · have hne : p.1 ≠ t := fun heq => hn.1 (heq ▸ mem_map.mpr ⟨_, hmem, rfl⟩)
      have hrest := ih hn.2 hmem
      rw [OrderedMap.replace] at hrest
      rw [if_neg hne, add_assoc, hrest, add_assoc]

section Exact

variable {K : Type} [AddCommGroup K] {R : Reading K}

theorem of_addAssistantUsage (f : SpendField) (a b : Amounts K) :
    f.of (addAssistantUsage a b) = f.of a + f.of b := by
  cases f <;> rfl

theorem of_totalUsage (f : SpendField) (us : List (Amounts K)) : f.of (totalUsage us) = (us.map f.of).sum := by
  induction us using reverseRecOn with
  | nil => cases f <;> rfl
  | append_singleton us u ih =>
    rw [totalUsage_append, of_addAssistantUsage, ih, map_append, sum_append, map_singleton, sum_singleton]

variable [LinearOrder K]

theorem of_subtractAssistantUsage (f : SpendField) (a b : Amounts K) :
    f.of (subtractAssistantUsage a b) = max 0 (f.of a - f.of b) := by
  cases f <;> rfl

theorem of_attributeChildUsage (f : SpendField) (a b : Amounts K) :
    f.of (attributeChildUsage a b) = f.of a + f.of b := by
  cases f <;> rfl

theorem sessionUsageSummaryFrom_congr {a b : Amounts K} (h : ∀ f : SpendField, f.of a = f.of b) :
    sessionUsageSummaryFrom a = sessionUsageSummaryFrom b := by
  have hinput : a.input = b.input := h .input
  have houtput : a.output = b.output := h .output
  have hread : a.cacheRead = b.cacheRead := h .cacheRead
  have hwrite : a.cacheWrite = b.cacheWrite := h .cacheWrite
  have hcost : a.costTotal = b.costTotal := h .cost
  rw [sessionUsageSummaryFrom, sessionUsageSummaryFrom, hinput, houtput, hread, hwrite, hcost]

/-- Each attribution adds the child's usage to what its target has by then. -/
def Attributes (R : Reading K) (hist : List SessionEntry) : Prop :=
  ∀ before e after a, hist = before ++ e :: after → e.attribution? = some a →
    ∀ u, (a.targetId, u) ∈ assistantUsages (settle before) →
      R.usage a.aggregateUsage = attributeChildUsage (R.usage u) (R.usage a.childUsage)

theorem nodup_assistantUsages {es : List SessionEntry} (hn : (es.map SessionEntry.id).Nodup) :
    ((assistantUsages es).map Prod.fst).Nodup := by
  induction es with
  | nil => exact nodup_nil
  | cons e es ih =>
    rw [map_cons, nodup_cons] at hn
    cases h : e.assistant? with
    | none => simpa [assistantUsages, h] using ih hn.2
    | some m =>
      have hcons : (assistantUsages (e :: es)).map Prod.fst = e.id :: (assistantUsages es).map Prod.fst := by
        simp [assistantUsages, h]
      rw [hcons, nodup_cons]
      refine ⟨fun hmem => ?_, ih hn.2⟩
      obtain ⟨x, hx, hid, -⟩ := key_assistantUsages.mp hmem
      exact hn.1 (hid ▸ mem_map_of_mem hx)

/-- In memory the assistant messages have their own usages and the children's. -/
theorem sum_settle (f : SpendField) {hist : List SessionEntry} (hh : History hist) (ha : Attributes R hist) :
    ((assistantUsages (settle hist)).map fun p => f.of (R.usage p.2)).sum =
      ((assistantUsages hist).map fun p => f.of (R.usage p.2)).sum +
        ((attributions hist).map fun a => f.of (R.usage a.childUsage)).sum := by
  induction hh with
  | nil => exact (add_zero _).symm
  | @append es e hh fresh target ih =>
    have ih := ih fun before x after a heq =>
      ha before x (after ++ [e]) a (by rw [heq, append_assoc, cons_append])
    rw [hh.settle_append fresh, assistantUsages_append, attributions_append]
    cases hatt : e.attribution? with
    | none =>
      rw [recorded_of_none hatt, assistantUsages_append, Option.toList_none, append_nil, map_append,
        sum_append, ih, map_append, sum_append, add_right_comm]
    | some a =>
      have hassistant : e.assistant? = none := by rw [SessionEntry.assistant?, body_of_attribution hatt]
      have hrecorded : recorded (settle es) e = (settle es).map (attributed a.targetId a.aggregateUsage) ++ [e] := by
        rw [recorded, hatt]
        rfl
      obtain ⟨t, ht, hid, hsome⟩ := target a hatt
      have hkey : a.targetId ∈ (assistantUsages (settle es)).map Prod.fst := by
        rw [key_assistantUsages]
        refine ⟨attributedBy (attributions es) t, mem_map_of_mem ht, by rw [attributedBy_id, hid], ?_⟩
        rw [isAssistant_attributedBy, hsome]
      obtain ⟨⟨_, u⟩, hmem, rfl⟩ := mem_map.mp hkey
      have haggregate := congrArg f.of (ha es e [] a rfl hatt u hmem)
      rw [of_attributeChildUsage] at haggregate
      have hnodup : ((assistantUsages (settle es)).map Prod.fst).Nodup := by
        refine nodup_assistantUsages ?_
        rw [settle, map_id_attributedBy]
        exact hh.nodup
      have hsum := @sum_replace K _ (fun u => f.of (R.usage u)) _ hnodup _ a.aggregateUsage _ hmem
      rw [haggregate, ← add_assoc, add_right_comm] at hsum
      rw [hrecorded, assistantUsages_append, hassistant, Option.map_none, Option.toList_none, append_nil,
        append_nil, assistantUsages_attributed, add_right_cancel hsum, ih, Option.toList_some, map_append,
        sum_append, map_singleton, sum_singleton, add_assoc]

variable [IsOrderedAddMonoid K]

/-- **A field of what is spent**, where the attributions add up. -/
theorem of_spentBy (f : SpendField) {hist : List SessionEntry} (hh : History hist) (ha : Attributes R hist)
    (hnonneg : ∀ u ∈ (assistantUsages hist).map Prod.snd ++ summarizationUsages hist, 0 ≤ f.of (R.usage u)) :
    f.of (spentBy R (settle hist)) =
      f.of (totalUsage (((assistantUsages hist).map Prod.snd ++ summarizationUsages hist).map R.usage)) := by
  have hsettled : attributions (settle hist) = attributions hist := attributions_map _ hist
  have hsummary : summarizationUsages (settle hist) = summarizationUsages hist := by
    have hfold : ∀ (as : List ChildUsageAttribution) es,
        summarizationUsages (es.map (attributedBy as)) = summarizationUsages es := by
      intro as
      induction as with
      | nil =>
        intro es
        exact congrArg summarizationUsages (map_id es)
      | cons a as ih =>
        intro es
        have hstep := ih (es.map (attributed a.targetId a.aggregateUsage))
        rw [summarizationUsages_attributed, map_map] at hstep
        exact hstep
    exact hfold _ hist
  have hown : f.of (totalUsage (((assistantUsages hist).map Prod.snd ++ summarizationUsages hist).map R.usage)) =
      ((assistantUsages hist).map fun p => f.of (R.usage p.2)).sum +
        ((summarizationUsages hist).map fun u => f.of (R.usage u)).sum := by
    rw [of_totalUsage, map_map, map_append, sum_append, map_map]
    rfl
  have hge : 0 ≤ f.of
      (totalUsage (((assistantUsages hist).map Prod.snd ++ summarizationUsages hist).map R.usage)) := by
    rw [of_totalUsage, map_map]
    refine sum_nonneg fun x hx => ?_
    obtain ⟨u, hu, rfl⟩ := mem_map.mp hx
    exact hnonneg u hu
  rw [spentBy, of_subtractAssistantUsage, of_addAssistantUsage, of_totalUsage, of_totalUsage, of_totalUsage,
    map_map, map_map, map_map, hsettled, hsummary]
  have hsum := sum_settle f hh ha
  simp only [Function.comp_def] at hsum ⊢
  rw [hsum, add_right_comm, add_sub_cancel_right, ← hown, max_eq_right hge]

end Exact

/-- **What the scan says that a session has spent** is the same in every form of its file, whatever the arithmetic; over
exact numbers it is the sum of its own usages. -/
theorem scanned_usage (h : SessionHeader) {hist lines : List SessionEntry} (hh : History hist)
    (hform : FileForm hist lines)
    (hfits : ∀ f ∈ FileEntry.session h :: lines.map .entry, isOversized (lineOf f) = false) :
    (∀ {N : Type} [Zero N] [Add N] [Sub N] [Max N] (R : Reading N),
      scanUsage R (contentOf (.session h :: lines.map .entry)) = some (spentBy R (settle hist))) ∧
    ∀ {K : Type} [AddCommGroup K] [LinearOrder K] [IsOrderedAddMonoid K] (R : Reading K), Attributes R hist →
      (∀ (f : SpendField), ∀ u ∈ (assistantUsages hist).map Prod.snd ++ summarizationUsages hist,
        0 ≤ f.of (R.usage u)) →
      (scanUsage R (contentOf (.session h :: lines.map .entry))).map sessionUsageSummaryFrom =
        some (sessionUsageSummaryFrom
          (totalUsage (((assistantUsages hist).map Prod.snd ++ summarizationUsages hist).map R.usage))) := by
  constructor
  · intro N _ _ _ _ R
    exact scanned_form R h hh hform hfits
  · intro K _ _ _ R ha hnonneg
    rw [scanned_form R h hh hform hfits, Option.map_some]
    exact congrArg some (sessionUsageSummaryFrom_congr fun f => of_spentBy f hh ha (hnonneg f))

/-! ## The file of a run -/

theorem History.recorded (h : History es) (fresh : e.id ∉ es.map SessionEntry.id)
    (target : ∀ a, e.attribution? = some a → ∃ t ∈ es, t.id = a.targetId ∧ t.assistant?.isSome = true) :
    History (Session.recorded es e) := by
  refine .append (h.map _) (by rwa [map_id_attributedBy]) fun a ha => ?_
  obtain ⟨t, ht, hid, hassistant⟩ := target a ha
  exact ⟨_, mem_map_of_mem ht, by rw [attributedBy_id, hid], by rw [isAssistant_attributedBy, hassistant]⟩

theorem History.of_map {lines : List SessionEntry} {as : List ChildUsageAttribution}
    (h : History (lines.map (attributedBy as))) : History lines := by
  induction lines using reverseRecOn with
  | nil => exact .nil
  | append_singleton es e ih =>
    rw [map_append, map_singleton] at h
    generalize hfull : es.map (attributedBy as) ++ [attributedBy as e] = full at h
    cases h with
    | nil => simp at hfull
    | append h fresh target =>
      obtain ⟨rfl, he⟩ := append_inj' hfull rfl
      cases he
      rw [attributedBy_id, map_id_attributedBy] at fresh
      refine .append (ih h) fresh fun a ha => ?_
      obtain ⟨t, ht, hid, hassistant⟩ := target a (by rw [attribution?_attributedBy, ha])
      obtain ⟨x, hx, rfl⟩ := mem_map.mp ht
      rw [attributedBy_id] at hid
      rw [isAssistant_attributedBy] at hassistant
      exact ⟨x, hx, hid, hassistant⟩

variable {w : World}

theorem Op.target_assistant {op : Op} {env : Env} {w₁ : World} {body : EntryBody} (h : WellFormed w.sm)
    (hp : op.plainAppend? w = some (body, w₁)) (a : ChildUsageAttribution)
    (ha : (w₁.sm.newEntry body env).attribution? = some a) :
    ∃ t ∈ w.sm.entries, t.id = a.targetId ∧ t.assistant?.isSome = true := by
  cases op with
  | appendChildUsageAttribution t c g o =>
    simp only [Op.plainAppend?] at hp
    split at hp
    · rename_i target ht
      split at hp
      · rename_i hassistant
        cases hp
        cases ha
        rw [h.index] at ht
        obtain ⟨hmem, hid⟩ := mem_of_get?_indexById ht
        exact ⟨target, hmem, hid, hassistant⟩
      · cases hp
    · cases hp
  | appendLabelChange t l =>
    simp only [Op.plainAppend?] at hp
    split at hp
    · cases hp
    · cases hp
      cases ha
  | branchWithSummary b s d f u =>
    simp only [Op.plainAppend?] at hp
    split at hp
    · cases hp
    · cases hp
      cases ha
  | branch | resetLeaf | flushNow | materializeSessionFile | newSession | appendCustomEntryWithRollback
  | appendCustomMessageEntryWithRollback => cases hp
  | _ =>
    cases hp
    cases ha

theorem history_run (op : Op) {env : Env} (h : WellFormed w.sm) (hf : env.Fresh w.sm)
    (hh : History w.sm.entries) : History (op.run env w).2.sm.entries := by
  cases hp : op.plainAppend? w with
  | some p =>
    obtain ⟨body, w₁⟩ := p
    have hpre := Op.prepared h hf hp
    rw [Op.run_plain hp, entries_finish, entries_of_same (appendBody_same w₁ body env), hpre.entries_push]
    exact hh.recorded hpre.fresh_id (Op.target_assistant h hp)
  | none =>
    cases hb : op.rollbackBody? with
    | some body =>
      rw [Op.run_rollback hb]
      rcases appendEntryWithRollback_same h hf body with hs | hs
      · have hfresh := newEntry_fresh hf body
        rw [h.index, has_indexById_eq_false] at hfresh
        have hentries := (entries_of_same hs).trans (entries_push _ _)
        rw [show (appendEntryWithRollback (appendBody body env) w).void.2.sm.entries = _ from hentries]
        refine .append hh hfresh fun a ha => ?_
        rw [Op.attribution?_rollback hb env w.sm] at ha
        cases ha
      · rw [show (appendEntryWithRollback (appendBody body env) w).void.2.sm.entries = _ from entries_of_same hs]
        exact hh
    | none =>
      rcases Op.run_other hp hb env with ⟨leaf, hl⟩ | rfl | ⟨dir, rfl⟩ | ⟨options, rfl⟩
      · rw [hl]
        exact hh
      · rw [show (Op.run .flushNow env w).2.sm.entries = _ from entries_of_same (flushNow_same w)]
        exact hh
      · show History (materializeSessionFile dir env w).2.sm.entries
        rcases materialize_cases dir env w with hm | ⟨id, path, _, hm⟩
        · rw [hm]
          exact hh
        · rw [hm, entries_of_same (rewriteAndFlush_same _), entries_materialized]
          exact hh
      · simp only [Op.run]
        rcases newSession_cases options env w with ⟨e, hn⟩ | ⟨id, file, _, hn⟩
        · rw [hn]
          exact hh
        · rw [hn]
          exact .nil

theorem ReachableBy.history {A : Op → Env → World → Prop} (h : ReachableBy A w) : History w.sm.entries := by
  induction h with
  | create cwd dir persist env files h =>
    rw [entries_create]
    exact .nil
  | run op env outcomes hw hf _ ih => exact history_run op hw.wellFormed hf ih
  | unlink path _ ih => exact ih

/-- **In every run** without a torn append the file of a flushed manager is scanned to what its memory has spent. -/
theorem ReachableBy.scanUsage [Zero K] [Add K] [Sub K] [Max K] (hw : ReachableBy Untorn w)
    (hpersist : w.sm.persist = true) (hflushed : w.sm.flushed = true) {path : String} {bytes : Bytes}
    (hpath : w.sm.sessionFile = some path) (hbytes : w.files path = some bytes)
    (hfits : ∀ line ∈ Lines.lines 10 bytes, isOversized line = false) (R : Reading K) :
    Session.scanUsage R bytes = some (spentBy R w.sm.entries) := by
  obtain ⟨h, lines, -, rfl, hsettle⟩ := hw.stored hpersist hflushed path bytes hpath hbytes
  have hlines : History lines := History.of_map (show History (settle lines) from hsettle ▸ hw.history)
  rw [← hsettle]
  refine scanned_form R h hlines (fileForm_appended lines) fun f hf => hfits _ ?_
  rw [contentOf_eq (cons_ne_nil _ _), Lines.lines_flatMap (newline_not_mem_lines _)]
  exact mem_map_of_mem hf

/-! ## Given histories -/

/-- Whole numbers, read from their digits. -/
def intReading : Reading Int :=
  { int := id
    number := fun n => n.text.foldl (fun value c => 10 * value + (c.toNat - 48 : Nat)) 0 }

/-- The file of a session with an attribution. -/
theorem scanUsage_durableWorld : ∃ bytes, durableWorld.files "/sessions/0.jsonl" = some bytes ∧
    scanUsage intReading bytes = some (spentBy intReading durableWorld.sm.entries) := by
  have hfits : (durableWorld.files "/sessions/0.jsonl").any
      (fun bytes => (Lines.lines 10 bytes).all fun line => !isOversized line) = true := by decide +kernel
  obtain ⟨bytes, hbytes, hall⟩ := (Option.any_eq_true _ _).1 hfits
  have hreach : ReachableBy Untorn durableWorld :=
    (reachable_newWorld.after (fun _ _ _ o ho => absurd ho not_mem_nil) (by decide)).mono fun _ _ _ => AllOk.untorn
  exact ⟨bytes, hbytes, hreach.scanUsage (by decide) (by decide) (by decide) hbytes (by simpa using hall) intReading⟩

theorem attributes_nil [AddCommGroup K] [LinearOrder K] (R : Reading K) : Attributes R [] := by
  intro before e after a heq
  simp at heq

theorem Attributes.append [AddCommGroup K] [LinearOrder K] {R : Reading K} (h : Attributes R es)
    (he : ∀ a, e.attribution? = some a → ∀ u, (a.targetId, u) ∈ assistantUsages (settle es) →
      R.usage a.aggregateUsage = attributeChildUsage (R.usage u) (R.usage a.childUsage)) :
    Attributes R (es ++ [e]) := by
  intro before x after a heq
  rcases eq_nil_or_concat' after with rfl | ⟨front, last, rfl⟩
  · obtain ⟨rfl, hx⟩ := append_inj' heq rfl
    cases hx
    exact he a
  · rw [← cons_append, ← append_assoc] at heq
    exact h before x front a (append_inj' heq rfl).1

def sessionHeader : SessionHeader :=
  { version := some currentVersion
    id := "0"
    timestamp := "2026-01-01T00:00:00.000Z"
    cwd := "/repo"
    parentSession := none
    rlmDepth := some 0
    git := none }

def entryOf (id : String) (body : EntryBody) : SessionEntry :=
  { id, parentId := none, timestamp := "2026-01-01T00:00:00.000Z", body }

def answerEntry (text : String) : SessionEntry := entryOf "a" (.message (assistantMessage text))

/-- The usage of the answer with some tokens of children. -/
def attributionEntry (id : String) (childTokens aggregateTokens : Int) : SessionEntry :=
  entryOf id (.childUsageAttributed
    { targetId := "a"
      childUsage := zeroUsage childTokens
      aggregateUsage := { zeroUsage aggregateTokens with totalTokens := 1 }
      origin := none })

/-- A child, and the file is rewritten. -/
def onceAttributed : List SessionEntry := [answerEntry "answer", attributionEntry "b" 3 4]

def twiceAttributed : List SessionEntry := onceAttributed ++ [attributionEntry "c" 5 9]

theorem history_answer : History [answerEntry "answer"] := by
  refine .append .nil (not_mem_nil) fun a ha => ?_
  exact absurd (show none = some a from ha) (by simp)

theorem history_onceAttributed : History onceAttributed := by
  refine .append history_answer (by decide) fun a ha => ?_
  cases show some _ = some a from ha
  exact ⟨_, mem_cons_self, rfl, rfl⟩

theorem history_twiceAttributed : History twiceAttributed := by
  refine .append history_onceAttributed (by decide) fun a ha => ?_
  cases show some _ = some a from ha
  exact ⟨_, mem_cons_self, rfl, rfl⟩

theorem assistantUsages_answer : assistantUsages (settle [answerEntry "answer"]) = [("a", zeroUsage 1)] := rfl

theorem assistantUsages_onceAttributed :
    assistantUsages (settle onceAttributed) = [("a", { zeroUsage 4 with totalTokens := 1 })] := rfl

theorem attributes_twiceAttributed : Attributes intReading twiceAttributed := by
  have hanswer : Attributes intReading [answerEntry "answer"] := by
    refine (attributes_nil intReading).append fun a ha => ?_
    exact absurd (show none = some a from ha) (by simp)
  refine (hanswer.append fun a ha u hu => ?_).append fun a ha u hu => ?_
  · cases show some _ = some a from ha
    rw [assistantUsages_answer, mem_singleton] at hu
    cases hu
    rfl
  · cases show some _ = some a from ha
    have hu : ("a", u) ∈ assistantUsages (settle onceAttributed) := hu
    rw [assistantUsages_onceAttributed, mem_singleton] at hu
    cases hu
    rfl

/-- Two attributions to one message, in a file that was rewritten between them. -/
theorem scanned_usage_twiceAttributed : (scanUsage intReading (contentOf (.session sessionHeader ::
        (settle onceAttributed ++ [attributionEntry "c" 5 9]).map .entry))).map sessionUsageSummaryFrom =
      some (sessionUsageSummaryFrom (totalUsage (((assistantUsages twiceAttributed).map Prod.snd ++
        summarizationUsages twiceAttributed).map intReading.usage))) := by
  have hform : FileForm twiceAttributed (settle onceAttributed ++ [attributionEntry "c" 5 9]) :=
    .append _ (fileForm_rewritten onceAttributed)
  exact (scanned_usage sessionHeader history_twiceAttributed hform (by decide +kernel)).2 intReading
    attributes_twiceAttributed fun f => by cases f <;> decide

/-! ### What is added, and what is left out -/

def compactionEntry : SessionEntry :=
  entryOf "b" (.compaction
    { summary := "summary"
      firstKeptEntryId := "a"
      tokensBefore := 1
      details := none
      fromHook := none
      customInstructions := none
      usage := some (zeroUsage 2)
      harnessDigest := none
      harnessStateFingerprint := none })

theorem isOversized_answer {text : String} (h : sessionListParseMaxLineChars < text.toList.length) :
    isOversized (lineOf (.entry (answerEntry text))) = true := by
  have hunits : ∀ s : List Char, s.length ≤ Text.length s := by
    intro s
    induction s with
    | nil => exact le_rfl
    | cons c s ih =>
      have hunit : 1 ≤ Text.units c := by
        unfold Text.units
        split <;> decide
      simp only [Text.length, map_cons, sum_cons, length_cons] at ih ⊢
      omega
  have htext : stringify (.string text) <:+: stringify (encodeFileEntry (.entry (answerEntry text))) := by
    have hblock : stringify (.string text) <:+:
        stringify (encodeAssistantBlock (.text { text, textSignature := none })) :=
      infix_object (mem_cons_of_mem _ mem_cons_self)
    have hcontent : stringify (.string text) <:+:
        stringify (.array [encodeAssistantBlock (.text { text, textSignature := none })]) :=
      hblock.trans (infix_array mem_cons_self)
    have hmessage : stringify (.array [encodeAssistantBlock (.text { text, textSignature := none })]) <:+:
        stringify (encodeMessage (assistantMessage text)) :=
      infix_object (mem_cons_of_mem _ mem_cons_self)
    have hfield : ("message", encodeMessage (assistantMessage text)) ∈
        [("type", Json.Value.string "message")] ++ baseFields (answerEntry text) ++
          [("message", encodeMessage (assistantMessage text))] := mem_append_right _ mem_cons_self
    exact (hcontent.trans hmessage).trans (infix_object hfield)
  have hlen := htext.length_le
  have hstring := length_le_string text
  have hline := hunits (stringify (encodeFileEntry (.entry (answerEntry text))))
  rw [isOversized, lineOf, Utf8.decode_encode, decide_eq_true_eq]
  omega

theorem scanUsage_oversized {h : SessionHeader} (hh : isOversized (lineOf (.session h)) = false)
    (he : isOversized (lineOf (.entry e)) = true) :
    scanUsage intReading (contentOf [.session h, .entry e]) = some (emptyUsage : Amounts Int) := by
  have hline : ∀ acc : SessionScanAccumulator Int, foldSessionScanLine intReading acc (lineOf (.entry e)) = acc := by
    intro acc
    rw [foldSessionScanLine, he, if_pos rfl]
  rw [scanUsage, feed_contentOf (cons_ne_nil _ _)]
  simp only [map_cons, map_nil, scanSessionLines, foldSessionScanLine_lineOf hh, hline]
  rfl

/-- The usage of a compaction is added to the answers' own, and an answer whose line is too long is left out. -/
theorem scanUsage_not_answers :
    ((scanUsage intReading (contentOf [.session sessionHeader, .entry (answerEntry "answer"),
      .entry compactionEntry])).map
        Amounts.input = some 3 ∧
      ((assistantUsages [answerEntry "answer", compactionEntry]).map fun p => p.2.input).sum = 1) ∧
    ∃ text, (scanUsage intReading (contentOf [.session sessionHeader, .entry (answerEntry text)])).map Amounts.input =
        some 0 ∧ ((assistantUsages [answerEntry text]).map fun p => p.2.input).sum = 1 := by
  refine ⟨⟨?_, by decide⟩, String.ofList (List.replicate (sessionListParseMaxLineChars + 1) 'a'), ?_, rfl⟩
  · have hhist : History [answerEntry "answer", compactionEntry] := by
      refine .append history_answer (by decide) fun a ha => ?_
      exact absurd (show none = some a from ha) (by simp)
    have hscan := scanned_form intReading sessionHeader hhist (fileForm_appended _) (by decide +kernel)
    rw [show [FileEntry.session sessionHeader, .entry (answerEntry "answer"), .entry compactionEntry] =
      .session sessionHeader :: [answerEntry "answer", compactionEntry].map .entry from rfl, hscan]
    rfl
  have hlong : sessionListParseMaxLineChars <
      (String.ofList (List.replicate (sessionListParseMaxLineChars + 1) 'a')).toList.length := by
    rw [String.toList_ofList, length_replicate]
    exact Nat.lt_succ_self _
  have hheader : isOversized (lineOf (.session sessionHeader)) = false := by decide +kernel
  rw [scanUsage_oversized hheader (isOversized_answer hlong)]
  rfl

end Session
end RePrime
