import RePrime.Lib.Lines
import RePrime.Session.Invariant

/-!
# RePrime.Session.Store

Reading a session file back: the repair of crash damage, the loader, the attributions, and
`setSessionFile`.

* `parseEntries_contentOf`: the lines written for a list of records are the records loaded.
* `repair_contentOf`: the repair leaves such a file alone.
* `setSessionFile` is `none` on a file of an older version, whose migration is not modelled: the
  manager writes the current one only.
-/

namespace RePrime
namespace Session

open List

/-! ## Loading -/

/-- The entries of a buffer; blank and malformed lines are skipped. -/
def parseEntriesFromBuffer (buffer : Bytes) : List FileEntry :=
  (Lines.lines 10 buffer).filterMap parseLine

def attributionOf? (f : FileEntry) : Option ChildUsageAttribution :=
  match f with
  | .session _ => none
  | .entry e =>
    match e.body with
    | .childUsageAttributed a => some a
    | _ => none

def attributionsOf (entries : List FileEntry) : List ChildUsageAttribution :=
  entries.filterMap attributionOf?

/-- Change the last element that satisfies `p`. -/
def updateLast {α : Type} (p : α → Bool) (f : α → α) : List α → List α
  | [] => []
  | a :: l => if p a && !l.any p then f a :: l else a :: updateLast p f l

def isAssistantWithId (id : String) : FileEntry → Bool
  | .session _ => false
  | .entry e => e.assistant?.isSome && e.id == id

/-- The second loop: the target is what `assistantEntriesById` holds for the id, the last assistant
entry with it. -/
def applyAttribution (entries : List FileEntry) (a : ChildUsageAttribution) : List FileEntry :=
  updateLast (isAssistantWithId a.targetId)
    (FileEntry.withUsage a.targetId (cloneUsage a.aggregateUsage)) entries

def applyChildUsageAttributions (entries : List FileEntry) : List FileEntry :=
  (attributionsOf entries).foldl applyAttribution entries

/-- A file whose first entry is not a header holds no session. -/
def finalizeLoadedEntries (entries : List FileEntry) : List FileEntry :=
  match entries with
  | .session _ :: _ => applyChildUsageAttributions entries
  | _ => []

def loadEntriesFromFile (files : String → Option Bytes) (path : String) : List FileEntry :=
  match files path with
  | none => []
  | some buffer => finalizeLoadedEntries (parseEntriesFromBuffer buffer)

/-! ## Repair -/

def repairSuspicionWindowBytes : Nat := 1024 * 1024

def tailLooksDamaged (bytes : Bytes) : Bool :=
  let window := bytes.drop (bytes.length - repairSuspicionWindowBytes)
  match window.getLast? with
  | none => false
  | some last =>
    if window.contains 0 then true
    else if last != 10 then true
    else
      let beforeNewline := window.dropLast
      if !beforeNewline.contains 10 && decide (repairSuspicionWindowBytes < bytes.length) then true
      else
        let lastLine := (beforeNewline.reverse.takeWhile fun b => b != 10).reverse
        !lastLine.isEmpty && !parsesAsJson lastLine

structure RepairScan where
  keptLines : List Bytes
  dirty : Bool

def RepairScan.keep (s : RepairScan) (line : Bytes) : RepairScan :=
  { s with keptLines := s.keptLines ++ [line] }

/-- A damaged line survives if what is left of it is a JSON text. -/
def RepairScan.recover (s : RepairScan) (line : Bytes) : RepairScan :=
  let s := { s with dirty := true }
  if !line.isEmpty && parsesAsJson line then s.keep line else s

/-- One round of the loop; `isFinal` says that the buffer ends with this line. -/
def RepairScan.step (s : RepairScan) (line : Bytes) (terminated isFinal : Bool) : RepairScan :=
  let stripped := line.dropWhile fun b => b == 0
  if stripped.length < line.length then s.recover stripped
  else if !terminated then s.recover line
  else if isFinal && !line.isEmpty && !parsesAsJson line then { s with dirty := true }
  else s.keep line

def repairLines (tail : Bytes) : List Bytes → RepairScan → RepairScan
  | [], s => if tail.isEmpty then s else s.step tail false true
  | line :: rest, s => repairLines tail rest (s.step line true (rest.isEmpty && tail.isEmpty))

def repairScan (buffer : Bytes) : RepairScan :=
  repairLines (Lines.feed 10 [] buffer).2 (Lines.feed 10 [] buffer).1 { keptLines := [], dirty := false }

/-- What the file is replaced with: a kept line goes through a string. -/
def RepairScan.content (s : RepairScan) : Bytes :=
  if s.keptLines.isEmpty then []
  else List.intercalate [10] (s.keptLines.map fun kept => Utf8.encode (Utf8.decode kept)) ++ [10]

/-- `none` leaves the file as it is. -/
def repairedContent (buffer : Bytes) : Option Bytes :=
  if tailLooksDamaged buffer && (repairScan buffer).dirty then some (repairScan buffer).content
  else none

def repairJsonlDamage (path : String) (w : World) : Result Unit :=
  match (w.files path).bind repairedContent with
  | none => (.ok (), w)
  | some content => w.writeFileAtomic path content

/-! ## Opening a session -/

def isValidRlmDepth (depth : Option Nat) : Bool := depth.any fun d => decide (d ≤ 9007199254740991)

/-- A header whose parent is known but whose depth is not gets its depth now. -/
def resolveHeader (env : Env) (h : SessionHeader) : Option SessionHeader :=
  if h.parentSession.any (fun p => p != "") && !isValidRlmDepth h.rlmDepth then
    some { h with rlmDepth := env.rlmDepth }
  else none

def SessionManager.loaded (sm : SessionManager) (header : SessionHeader) (entries : List FileEntry) :
    SessionManager :=
  { sm with fileEntries := entries, sessionId := header.id }.refreshHasAssistantEntry

/-- The branch for a file that holds no session: start a new one under this path. -/
def restartSession (sessionFile : String) (env : Env) (w : World) : Result Unit :=
  match newSession { id := none, parentSession := none } env w with
  | (.error e, w) => (.error e, w)
  | (.ok _, w) =>
    match rewriteFile { w with sm := { w.sm with sessionFile := some sessionFile } } with
    | (.error e, w) => (.error e, w)
    | (.ok _, w) => (.ok (), w.setFlushed true)

/-- The branch for a file with a header. -/
def openSession (header : SessionHeader) (entries : List FileEntry) (env : Env) (w : World) :
    Result Unit :=
  match resolveHeader env header with
  | none =>
    (.ok (), { w with sm := { (w.sm.loaded header entries).buildIndex with flushed := true } })
  | some header' =>
    let sm := w.sm.loaded header (.session header' :: entries.tail)
    match rewriteFile { w with sm } with
    | (.error e, w) => (.error e, w)
    | (.ok _, w) => (.ok (), { w with sm := { w.sm.buildIndex with flushed := true } })

/-- The branch for a file that exists. -/
def openExisting (sessionFile : String) (env : Env) (w : World) : Option (Result Unit) :=
  match (if w.sm.persist then repairJsonlDamage sessionFile w else (.ok (), w)) with
  | (.error e, w) => some (.error e, w)
  | (.ok _, w) =>
    match loadEntriesFromFile w.files sessionFile with
    | .session header :: entries =>
      if header.version.getD 1 < currentVersion then none
      else some (openSession header (.session header :: entries) env w)
    | _ => some (restartSession sessionFile env w)

def SessionManager.setPath (sm : SessionManager) (sessionFile : String) : SessionManager :=
  { sm with sessionFile := some sessionFile }

def setSessionFile (sessionFile : String) (env : Env) (w : World) : Option (Result Unit) :=
  if w.existsSync sessionFile then
    openExisting sessionFile env { w with sm := w.sm.setPath sessionFile }
  else
    match newSession { id := none, parentSession := none } env
      { w with sm := w.sm.setPath sessionFile } with
    | (.error e, w) => some (.error e, w)
    | (.ok _, w) => some (.ok (), { w with sm := w.sm.setPath sessionFile })

/-! ## A file as it was written -/

theorem intercalate_append_sep {α : Type} (sep : List α) {parts : List (List α)} (h : parts ≠ []) :
    List.intercalate sep parts ++ sep = parts.flatMap fun p => p ++ sep := by
  induction parts with
  | nil => exact absurd rfl h
  | cons p parts ih =>
    cases parts with
    | nil => simp [List.intercalate]
    | cons q parts =>
      have := ih (by simp)
      rw [flatMap_cons, ← this]
      simp [List.intercalate, List.intersperse]

variable {entries : List FileEntry}

theorem contentOf_eq (h : entries ≠ []) :
    contentOf entries = (entries.map lineOf).flatMap fun line => line ++ [10] :=
  intercalate_append_sep [10] (by simpa using h)

theorem newline_not_mem_lines (entries : List FileEntry) : ∀ line ∈ entries.map lineOf, (10 : UInt8) ∉ line := by
  intro line hl
  obtain ⟨f, _, rfl⟩ := mem_map.1 hl
  exact newline_not_mem_lineOf f

theorem contentOf_append (h : entries ≠ []) (f : FileEntry) :
    contentOf entries ++ (lineOf f ++ [10]) = contentOf (entries ++ [f]) := by
  rw [contentOf_eq h, contentOf_eq (by simp), map_append, flatMap_append]
  simp

theorem filterMap_parseLine_lines (entries : List FileEntry) :
    (entries.map lineOf).filterMap parseLine = entries := by
  have hp : parseLine ∘ lineOf = some := by
    funext f
    exact parseLine_lineOf f
  rw [filterMap_map, hp, filterMap_some]

theorem parseEntries_contentOf (h : entries ≠ []) : parseEntriesFromBuffer (contentOf entries) = entries := by
  rw [parseEntriesFromBuffer, contentOf_eq h, Lines.lines_flatMap (newline_not_mem_lines entries),
    filterMap_parseLine_lines]

theorem parseEntries_contentOf_line (h : entries ≠ []) {line : Bytes} (hl : (10 : UInt8) ∉ line) :
    parseEntriesFromBuffer (contentOf entries ++ (line ++ [10])) = entries ++ (parseLine line).toList := by
  have hlines : contentOf entries ++ (line ++ [10]) =
      (entries.map lineOf ++ [line]).flatMap fun l => l ++ [10] := by
    rw [contentOf_eq h, flatMap_append, flatMap_singleton]
  have hsep : ∀ l ∈ entries.map lineOf ++ [line], (10 : UInt8) ∉ l := by
    intro l hm
    cases mem_append.1 hm with
    | inl hm => exact newline_not_mem_lines entries l hm
    | inr hm => rwa [mem_singleton.1 hm]
  rw [parseEntriesFromBuffer, hlines, Lines.lines_flatMap hsep, filterMap_append, filterMap_parseLine_lines]
  cases hp : parseLine line <;> simp [hp]

theorem feed_contentOf (h : entries ≠ []) : Lines.feed 10 [] (contentOf entries) = (entries.map lineOf, []) := by
  have hf := Lines.feed_flatMap (newline_not_mem_lines entries) []
  rw [append_nil] at hf
  rw [contentOf_eq h, hf]
  simp [Lines.feed]

/-- A whole line is kept: it starts with no NUL, and a last one is a JSON text. -/
theorem RepairScan.step_lineOf (s : RepairScan) (f : FileEntry) (isFinal : Bool) :
    s.step (lineOf f) true isFinal = s.keep (lineOf f) := by
  have hstrip : (lineOf f).dropWhile (fun b => b == 0) = lineOf f := by
    cases hl : lineOf f with
    | nil => rfl
    | cons b line =>
      have hb : 32 ≤ b.toNat := @le_of_mem_lineOf f b (by rw [hl]; exact mem_cons_self)
      have hne : (b == 0) = false := beq_eq_false_iff_ne.2 fun h => by rw [h] at hb; simp at hb
      rw [dropWhile_cons, hne]
      rfl
  simp [RepairScan.step, hstrip, parsesAsJson_lineOf]

theorem repairLines_dirty (entries : List FileEntry) (s : RepairScan) :
    (repairLines [] (entries.map lineOf) s).dirty = s.dirty := by
  induction entries generalizing s with
  | nil => rfl
  | cons f entries ih =>
    rw [map_cons, repairLines, RepairScan.step_lineOf, ih]
    rfl

theorem not_dirty_contentOf (h : entries ≠ []) : (repairScan (contentOf entries)).dirty = false := by
  rw [repairScan, feed_contentOf h, repairLines_dirty]

/-- However suspicious its tail looks, a file as it was written is left alone. -/
theorem repair_contentOf (h : entries ≠ []) : repairedContent (contentOf entries) = none := by
  simp [repairedContent, not_dirty_contentOf h]

theorem repairJsonlDamage_contentOf (h : entries ≠ []) {path : String}
    {w : World} (hf : w.files path = some (contentOf entries)) : repairJsonlDamage path w = (.ok (), w) := by
  have hnone : (w.files path).bind repairedContent = none := by
    rw [hf, Option.bind_some, repair_contentOf h]
  rw [repairJsonlDamage, hnone]

end Session
end RePrime
