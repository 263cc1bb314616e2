import RePrime.Lib.Fallible
import RePrime.Lib.JsonLines
import RePrime.Lib.OrderedMap

/-!
# RePrime.Daemon.CommandJournal

`CommandRecoveryJournal`: the commands that were received and not acknowledged, in memory and in an
append-only file that is replayed when the journal is opened.

* `World.step`: opening, an operation, one whose append is cut off by a crash, the end of the process.
* `load_write`, `load_cut`, `load_compact`: what is replayed after an append, a cut append and a
  compaction.
* `journal_remembers`: in a run in which nothing is appended to a line that was cut, a command that was
  new is not new again, and its result is kept, until it is acknowledged.
* `restart_of_run`: in such a run a restart makes no difference.
-/

namespace RePrime
namespace Daemon

open Json List OrderedMap
open JsonLines

/-! ## Records -/

/-- A string property. -/
def stringField (key : String) (v : Value) : Option String :=
  match field key v with
  | some (.string s) => some s
  | _ => none

/-- A response of the daemon, by its JSON. -/
structure DaemonResponse where
  value : Value
  isResponse : stringField "type" value = some "response"

inductive JournalRecord where
  | received (key clientId commandId commandType recordedAt : String)
  | result (key : String) (response : DaemonResponse) (recordedAt : String)
  | acknowledged (key recordedAt : String)

open JournalRecord

def JournalRecord.fields : JournalRecord → List (String × Value)
  | .received key clientId commandId commandType recordedAt =>
    [("version", .int 1), ("type", .string "received"), ("key", .string key),
      ("clientId", .string clientId), ("commandId", .string commandId),
      ("commandType", .string commandType), ("recordedAt", .string recordedAt)]
  | .result key response recordedAt =>
    [("version", .int 1), ("type", .string "result"), ("key", .string key),
      ("response", response.value), ("recordedAt", .string recordedAt)]
  | .acknowledged key recordedAt =>
    [("version", .int 1), ("type", .string "acknowledged"), ("key", .string key),
      ("recordedAt", .string recordedAt)]

def JournalRecord.toJson (r : JournalRecord) : Value := .object r.fields

def JournalRecord.key : JournalRecord → String
  | .received key _ _ _ _ => key
  | .result key _ _ => key
  | .acknowledged key _ => key

/-- The record of a receipt is kept as it was parsed, or written. -/
structure JournalEntry where
  received : Value
  response : Option Value

inductive CommandJournalBeginResult where
  | new | pending
  | complete (response : Value)

def compactAfterRecords : Nat := 4096

def createCommandIdempotencyKey (clientId commandId : String) : String :=
  String.ofList (stringify (.array [.string clientId, .string commandId]))

structure CommandRecoveryJournal where
  entries : OrderedMap String JournalEntry
  recordCount : Nat

open CommandRecoveryJournal

/-! ## Loading -/

def CommandRecoveryJournal.empty : CommandRecoveryJournal := { entries := .empty, recordCount := 0 }

/-- One line that was parsed; reading a property of `null` throws. -/
def loadRecord (journal : CommandRecoveryJournal) (record : Value) :
    Except String CommandRecoveryJournal :=
  match record with
  | .null => .error "Cannot read properties of null (reading 'version')"
  | record =>
    match stringField "key" record with
    | none => .ok journal
    | some key =>
      if (field "version" record).bind Value.toInt? ≠ some 1 then .ok journal
      else
        let recordCount := journal.recordCount + 1
        if stringField "type" record = some "received" then
          if (stringField "clientId" record).isSome ∧ (stringField "commandId" record).isSome ∧
              (stringField "commandType" record).isSome then
            .ok { entries := journal.entries.set key { received := record, response := none }, recordCount }
          else .ok { journal with recordCount }
        else if stringField "type" record = some "acknowledged" then
          .ok { entries := journal.entries.delete key, recordCount }
        else
          match journal.entries.get? key, field "response" record with
          | some entry, some response =>
            if stringField "type" response = some "response" then
              .ok { entries := journal.entries.set key { entry with response := some response }, recordCount }
            else .ok { journal with recordCount }
          | _, _ => .ok { journal with recordCount }

/-- A file that does not exist holds no records. -/
def load (file : Option (List UInt8)) : Except String CommandRecoveryJournal :=
  match file with
  | none => .ok .empty
  | some bytes => (values bytes).foldlM loadRecord .empty

/-! ## Operations -/

def CommandRecoveryJournal.lookup (journal : CommandRecoveryJournal) (clientId commandId : String) :
    Option CommandJournalBeginResult :=
  match journal.entries.get? (createCommandIdempotencyKey clientId commandId) with
  | none => none
  | some entry =>
    match entry.response with
    | some response => some (.complete response)
    | none => some .pending

/-- The process ends in the middle of an append, or an error is thrown. -/
inductive Failure where
  | crashed
  | thrown (message : String)

/-- The file, and how many bytes of the next append reach it, when it is cut off. -/
structure Disk where
  file : Option (List UInt8)
  cut : Option Nat

def append (record : JournalRecord) (disk : Disk) : Except Failure Unit × Disk :=
  let bytes := line record.toJson
  match disk.cut with
  | none => (.ok (), { disk with file := some (disk.file.getD [] ++ bytes) })
  | some n => (.error .crashed, { disk with file := some (disk.file.getD [] ++ bytes.take n) })

/-- The records of an entry. -/
def compactRecords (recordedAt : String) (key : String) (entry : JournalEntry) : List Value :=
  entry.received ::
    match entry.response with
    | none => []
    | some response =>
      [.object [("version", .int 1), ("type", .string "result"), ("key", .string key),
        ("response", response), ("recordedAt", .string recordedAt)]]

def compact (recordedAt : String) (journal : CommandRecoveryJournal) (disk : Disk) :
    CommandRecoveryJournal × Disk :=
  let records := journal.entries.entries.flatMap fun e => compactRecords recordedAt e.1 e.2
  ({ journal with recordCount := records.length },
    { disk with file := some (joined records) })

abbrev Result (α : Type) := Except Failure (α × CommandRecoveryJournal) × Disk

def begin (clientId commandId commandType recordedAt : String) (journal : CommandRecoveryJournal)
    (disk : Disk) : Result CommandJournalBeginResult :=
  let key := createCommandIdempotencyKey clientId commandId
  match journal.lookup clientId commandId with
  | some existing => (.ok (existing, journal), disk)
  | none =>
    let received : JournalRecord := .received key clientId commandId commandType recordedAt
    match append received disk with
    | (.error e, disk) => (.error e, disk)
    | (.ok _, disk) =>
      (.ok (.new,
        { entries := journal.entries.set key { received := received.toJson, response := none }
          recordCount := journal.recordCount + 1 }), disk)

def recordResult (clientId commandId : String) (response : DaemonResponse) (recordedAt : String)
    (journal : CommandRecoveryJournal) (disk : Disk) : Result Unit :=
  let key := createCommandIdempotencyKey clientId commandId
  match journal.entries.get? key with
  | none => (.error (.thrown ("Cannot record a result before command receipt: " ++ key)), disk)
  | some entry =>
    match append (.result key response recordedAt) disk with
    | (.error e, disk) => (.error e, disk)
    | (.ok _, disk) =>
      let journal :=
        { entries := journal.entries.set key { entry with response := some response.value }
          recordCount := journal.recordCount + 1 }
      if compactAfterRecords ≤ journal.recordCount then
        let (journal, disk) := compact recordedAt journal disk
        (.ok ((), journal), disk)
      else (.ok ((), journal), disk)

def acknowledge (clientId commandId recordedAt : String) (journal : CommandRecoveryJournal)
    (disk : Disk) : Result Unit :=
  let key := createCommandIdempotencyKey clientId commandId
  if journal.entries.has key = false then (.ok ((), journal), disk)
  else
    match append (.acknowledged key recordedAt) disk with
    | (.error e, disk) => (.error e, disk)
    | (.ok _, disk) =>
      let journal :=
        { entries := journal.entries.delete key
          recordCount := journal.recordCount + 1 }
      if journal.entries.size = 0 ∨ compactAfterRecords ≤ journal.recordCount then
        let (journal, disk) := compact recordedAt journal disk
        (.ok ((), journal), disk)
      else (.ok ((), journal), disk)

/-! ## Runs -/

inductive Op where
  | begin (clientId commandId commandType recordedAt : String)
  | recordResult (clientId commandId : String) (response : DaemonResponse) (recordedAt : String)
  | acknowledge (clientId commandId recordedAt : String)

open Op

inductive Answer where
  | began (result : CommandJournalBeginResult)
  | done
  | failed (failure : Failure)

def Result.map {α : Type} (f : α → Answer) (r : Result α) : Result Answer :=
  (r.1.map fun p => (f p.1, p.2), r.2)

def Op.run (op : Op) (journal : CommandRecoveryJournal) (disk : Disk) : Result Answer :=
  match op with
  | .begin c d type time => Result.map .began (Daemon.begin c d type time journal disk)
  | .recordResult c d response time =>
    Result.map (fun _ => .done) (Daemon.recordResult c d response time journal disk)
  | .acknowledge c d time => Result.map (fun _ => .done) (Daemon.acknowledge c d time journal disk)

/-- The file, and the journal of the process that has it open. -/
structure World where
  file : Option (List UInt8)
  journal : Option CommandRecoveryJournal

def World.new : World := { file := none, journal := none }

inductive Act where
  | start
  | run (op : Op)
  | crash (op : Op) (written : Nat)
  | stop

/-- A journal goes on after an error that is thrown, and ends with a crash; an operation that appends
nothing is not cut off. -/
def World.after (journal : CommandRecoveryJournal) (r : Result Answer) : World × Option Answer :=
  match r with
  | (.ok (answer, journal), disk) => ({ file := disk.file, journal := some journal }, some answer)
  | (.error .crashed, disk) => ({ file := disk.file, journal := none }, none)
  | (.error (.thrown message), disk) =>
    ({ file := disk.file, journal := some journal }, some (.failed (.thrown message)))

def World.step (σ : World) : Act → World × Option Answer
  | .start =>
    match load σ.file with
    | .ok journal => ({ σ with journal := some journal }, none)
    | .error message => ({ σ with journal := none }, some (.failed (.thrown message)))
  | .run op =>
    match σ.journal with
    | none => (σ, none)
    | some journal => World.after journal (op.run journal { file := σ.file, cut := none })
  | .crash op written =>
    match σ.journal with
    | none => (σ, none)
    | some journal => World.after journal (op.run journal { file := σ.file, cut := some written })
  | .stop => ({ σ with journal := none }, none)

def World.runs (σ : World) (acts : List Act) : World := acts.foldl (fun σ act => (σ.step act).1) σ

/-! ## Replaying a record -/

/-- What a record changes. -/
def CommandRecoveryJournal.applied (journal : CommandRecoveryJournal) (r : JournalRecord) :
    CommandRecoveryJournal where
  entries :=
    match r with
    | .received key _ _ _ _ => journal.entries.set key { received := r.toJson, response := none }
    | .result key response _ =>
      match journal.entries.get? key with
      | some entry => journal.entries.set key { entry with response := some response.value }
      | none => journal.entries
    | .acknowledged key _ => journal.entries.delete key
  recordCount := journal.recordCount + 1

section

variable {journal : CommandRecoveryJournal}

def JournalRecord.type : JournalRecord → String
  | .received _ _ _ _ _ => "received"
  | .result _ _ _ => "result"
  | .acknowledged _ _ => "acknowledged"

theorem stringField_key (r : JournalRecord) : stringField "key" r.toJson = some r.key := by
  cases r with
  | _ => simp [stringField, toJson, fields, JournalRecord.key, field, lookup_cons]

theorem stringField_type (r : JournalRecord) : stringField "type" r.toJson = some r.type := by
  cases r with
  | _ => simp [stringField, toJson, fields, JournalRecord.type, field, lookup_cons]

theorem field_version (r : JournalRecord) : (field "version" r.toJson).bind Value.toInt? = some 1 := by
  cases r with
  | _ => simp [toJson, fields, field, lookup_cons]

theorem field_response (key : String) (response : DaemonResponse) (time : String) :
    field "response" (JournalRecord.result key response time).toJson = some response.value := by
  simp [toJson, fields, field, lookup_cons]

/-- A receipt that a load accepts for a key. -/
structure Received (key : String) (v : Value) : Prop where
  key : stringField "key" v = some key
  version : (field "version" v).bind Value.toInt? = some 1
  type : stringField "type" v = some "received"
  ids : (stringField "clientId" v).isSome ∧ (stringField "commandId" v).isSome ∧
    (stringField "commandType" v).isSome

theorem received_toJson (key clientId commandId commandType recordedAt : String) :
    Received key (received key clientId commandId commandType recordedAt).toJson where
  key := stringField_key _
  version := field_version _
  type := stringField_type _
  ids := by simp [stringField, toJson, fields, field, lookup_cons]

variable {key : String} {v : Value}

theorem loadRecord_received (h : Received key v) :
    loadRecord journal v = .ok
      { entries := journal.entries.set key { received := v, response := none }
        recordCount := journal.recordCount + 1 } := by
  unfold loadRecord
  split
  · have hkey := h.key
    cases hkey
  · simp only [h.key, h.version, h.type, h.ids, ne_eq, not_true_eq_false, if_false, and_self, if_true]

theorem loadRecord_result {response : Value} {entry : JournalEntry}
    (hkey : stringField "key" v = some key)
    (hversion : (field "version" v).bind Value.toInt? = some 1)
    (htype : stringField "type" v = some "result") (hfield : field "response" v = some response)
    (hresponse : stringField "type" response = some "response")
    (hentry : journal.entries.get? key = some entry) :
    loadRecord journal v = .ok
      { entries := journal.entries.set key { entry with response := some response }
        recordCount := journal.recordCount + 1 } := by
  unfold loadRecord
  split
  · cases hkey
  · simp [hkey, hversion, htype, hfield, hresponse, hentry]

theorem loadRecord_toJson (journal : CommandRecoveryJournal) (r : JournalRecord) :
    loadRecord journal r.toJson = .ok (journal.applied r) := by
  cases r with
  | received key c d type time => exact loadRecord_received (received_toJson key c d type time)
  | result key response time =>
    cases hget : journal.entries.get? key with
    | none =>
      have hkey := stringField_key (.result key response time)
      have htype := stringField_type (.result key response time)
      unfold loadRecord
      split
      · rename_i hnull
        cases hnull
      · simp [hkey, field_version, htype, JournalRecord.key, JournalRecord.type,
          applied, hget]
    | some entry =>
      rw [loadRecord_result (stringField_key _) (field_version _) (stringField_type _)
        (field_response key response time) response.isResponse hget]
      simp [applied, JournalRecord.key, hget]
  | acknowledged key time =>
    have hkey := stringField_key (.acknowledged key time)
    have htype := stringField_type (.acknowledged key time)
    unfold loadRecord
    split
    · rename_i hnull
      cases hnull
    · simp [hkey, field_version, htype, JournalRecord.key, JournalRecord.type,
        applied]

/-! ## What is replayed -/

variable {file : Option (List UInt8)}

/-- The bytes that hold the text of a record. -/
def JournalRecord.size (r : JournalRecord) : Nat := (Utf8.encode (stringify r.toJson)).length

theorem load_eq (file : Option (List UInt8)) :
    load file = (values (file.getD [])).foldlM loadRecord .empty := by
  cases file with
  | none | some => rfl

theorem load_append (hfile : load file = .ok journal) (ht : JsonLines.Terminated (file.getD []))
    (bytes : List UInt8) : load (some (file.getD [] ++ bytes)) =
      (values bytes).foldlM loadRecord journal := by
  rw [load_eq] at hfile
  rw [load_eq, Option.getD_some, values_append ht, foldlM_append, hfile]
  rfl

theorem load_write (hfile : load file = .ok journal) (ht : JsonLines.Terminated (file.getD []))
    (r : JournalRecord) :
    load (some (file.getD [] ++ line r.toJson)) = .ok (journal.applied r) := by
  rw [load_append hfile ht, values_line, foldlM_cons, loadRecord_toJson]
  rfl

/-- After the first bytes of a record: it was written when its text was. -/
theorem load_cut (hfile : load file = .ok journal) (ht : JsonLines.Terminated (file.getD []))
    (r : JournalRecord) (n : Nat) :
    load (some (file.getD [] ++ (line r.toJson).take n)) =
      .ok (if r.size ≤ n then journal.applied r else journal) := by
  rw [load_append hfile ht, toJson, values_take]
  show List.foldlM loadRecord journal (if r.size ≤ n then _ else _) = _
  split
  · rw [foldlM_cons, ← toJson, loadRecord_toJson]
    rfl
  · rfl

/-! ## Compaction -/

structure JournalEntry.Valid (key : String) (entry : JournalEntry) : Prop where
  received : Received key entry.received
  response : ∀ response ∈ entry.response, stringField "type" response = some "response"

def CommandRecoveryJournal.Valid (journal : CommandRecoveryJournal) : Prop :=
  ∀ e ∈ journal.entries.entries, e.2.Valid e.1

theorem loadRecord_valid {journal' : CommandRecoveryJournal} (hv : journal.Valid)
    (h : loadRecord journal v = .ok journal') : journal'.Valid := by
  unfold loadRecord at h
  split at h
  · cases h
  · split at h
    · cases h
      exact hv
    · rename_i key hkey
      split at h
      · cases h
        exact hv
      · rename_i hversion
        rw [not_not] at hversion
        simp only [] at h
        split at h
        · rename_i htype
          split at h
          · rename_i hids
            cases h
            intro e he
            obtain rfl | he := mem_entries_set he
            · exact ⟨⟨hkey, hversion, htype, hids⟩, by simp⟩
            · exact hv e he
          · cases h
            exact hv
        · split at h
          · cases h
            intro e he
            exact hv e (mem_filter.1 he).1
          · split at h
            · rename_i entry response hentry hfield
              split at h
              · rename_i hresponse
                cases h
                intro e he
                obtain rfl | he := mem_entries_set he
                · have hold := hv _ (mem_entries_of_get? hentry)
                  refine ⟨hold.received, fun r hr => ?_⟩
                  cases hr
                  exact hresponse
                · exact hv e he
              · cases h
                exact hv
            · cases h
              exact hv

theorem foldlM_valid {vs : List Value} : ∀ {journal journal' : CommandRecoveryJournal}, journal.Valid →
    vs.foldlM loadRecord journal = .ok journal' → journal'.Valid := by
  induction vs with
  | nil =>
    intro journal journal' hv h
    cases h
    exact hv
  | cons v vs ih =>
    intro journal journal' hv h
    rw [foldlM_cons] at h
    obtain ⟨mid, hm, h⟩ := Fallible.bind_ok.1 h
    exact ih (loadRecord_valid hv hm) h

theorem load_valid (h : load file = .ok journal) : journal.Valid := by
  rw [load_eq] at h
  refine foldlM_valid ?_ h
  intro e he
  cases he

theorem foldlM_compactRecords (time : String) {entry : JournalEntry} (he : entry.Valid key)
    (hkey : journal.entries.has key = false) :
    ∃ journal', (compactRecords time key entry).foldlM loadRecord journal = .ok journal' ∧
      journal'.entries.entries = journal.entries.entries ++ [(key, entry)] ∧
      journal'.recordCount = journal.recordCount + (compactRecords time key entry).length := by
  unfold compactRecords
  rw [foldlM_cons, loadRecord_received he.received]
  obtain ⟨received, response⟩ := entry
  cases response with
  | none => exact ⟨_, rfl, set_of_not_has hkey _, rfl⟩
  | some response =>
    have htype := he.response response rfl
    refine ⟨{ entries := journal.entries.set key { received, response := some response }
              recordCount := journal.recordCount + 2 }, ?_, set_of_not_has hkey _, rfl⟩
    show List.foldlM loadRecord _ [_] = _
    rw [foldlM_cons, @loadRecord_result _ key _ response { received, response := none }]
    · show Except.ok _ = Except.ok _
      rw [OrderedMap.set_set]
    · simp [stringField, field, lookup_cons]
    · simp [field, lookup_cons]
    · simp [stringField, field, lookup_cons]
    · simp [field, lookup_cons]
    · exact htype
    · rw [OrderedMap.get?_set, if_pos rfl]

theorem foldlM_compact (time : String) {l : List (String × JournalEntry)} :
    ∀ {journal : CommandRecoveryJournal}, (∀ e ∈ l, e.2.Valid e.1) →
      ((journal.entries.entries ++ l).map Prod.fst).Nodup →
      ∃ journal', (l.flatMap fun e => compactRecords time e.1 e.2).foldlM loadRecord journal =
          .ok journal' ∧
        journal'.entries.entries = journal.entries.entries ++ l ∧
        journal'.recordCount =
          journal.recordCount + (l.flatMap fun e => compactRecords time e.1 e.2).length := by
  induction l with
  | nil =>
    intro journal _ _
    exact ⟨journal, rfl, (append_nil _).symm, rfl⟩
  | cons e l ih =>
    intro journal hv hn
    have hkey : journal.entries.has e.1 = false := by
      refine decide_eq_false fun hmem => ?_
      rw [map_append, map_cons, nodup_append'] at hn
      exact hn.2.2 hmem mem_cons_self
    obtain ⟨mid, hmid, hentries, hcount⟩ :=
      foldlM_compactRecords time (hv e mem_cons_self) hkey
    have hn' : ((mid.entries.entries ++ l).map Prod.fst).Nodup := by
      rw [hentries, append_assoc]
      exact hn
    obtain ⟨journal', hj, hentries', hcount'⟩ :=
      ih (fun e' he' => hv e' (mem_cons_of_mem _ he')) hn'
    refine ⟨journal', ?_, ?_, ?_⟩
    · rw [flatMap_cons, foldlM_append, hmid]
      exact hj
    · rw [hentries', hentries, append_assoc]
      rfl
    · rw [hcount', hcount, flatMap_cons, length_append]
      omega

/-- What a compaction leaves in memory is what is replayed of its file. -/
theorem load_compact (time : String) (hv : journal.Valid) (disk : Disk) :
    load (compact time journal disk).2.file = .ok (compact time journal disk).1 ∧
      (compact time journal disk).1.entries = journal.entries := by
  refine ⟨?_, rfl⟩
  obtain ⟨journal', hj, hentries, hcount⟩ := @foldlM_compact time _ .empty hv journal.entries.nodup
  show (values (joined _)).foldlM loadRecord .empty = _
  rw [values_joined, hj]
  have hsame : journal'.entries = journal.entries := ext_entries hentries
  obtain ⟨entries, count⟩ := journal'
  cases hsame
  have hcount : count = _ := hcount
  rw [hcount]
  simp [compact, CommandRecoveryJournal.empty]

/-! ## What an operation appends -/

/-- The record an operation appends. -/
def Op.record? (journal : CommandRecoveryJournal) : Op → Option JournalRecord
  | .begin c d type time =>
    if journal.entries.has (createCommandIdempotencyKey c d) then none
    else some (.received (createCommandIdempotencyKey c d) c d type time)
  | .recordResult c d response time =>
    if journal.entries.has (createCommandIdempotencyKey c d) then
      some (.result (createCommandIdempotencyKey c d) response time)
    else none
  | .acknowledge c d time =>
    if journal.entries.has (createCommandIdempotencyKey c d) then
      some (.acknowledged (createCommandIdempotencyKey c d) time)
    else none

variable {c d : String}

theorem lookup_eq_none_iff :
    journal.lookup c d = none ↔ journal.entries.has (createCommandIdempotencyKey c d) = false := by
  rw [has_eq_false_iff, CommandRecoveryJournal.lookup]
  cases journal.entries.get? (createCommandIdempotencyKey c d) with
  | none => simp
  | some entry =>
    obtain ⟨received, response⟩ := entry
    cases response with
    | none | some => simp

variable {op : Op}

theorem run_silent (h : op.record? journal = none) (disk : Disk) :
    (∃ answer, op.run journal disk = (.ok (answer, journal), disk)) ∨
      ∃ message, op.run journal disk = (.error (.thrown message), disk) := by
  cases op with
  | begin c d type time =>
    cases hlookup : journal.lookup c d with
    | none => simp [record?, lookup_eq_none_iff.1 hlookup] at h
    | some existing =>
      refine .inl ⟨.began existing, ?_⟩
      simp [run, Daemon.begin, hlookup, Result.map, Except.map]
  | recordResult c d response time =>
    cases hget : journal.entries.get? (createCommandIdempotencyKey c d) with
    | none =>
      refine .inr ⟨"Cannot record a result before command receipt: " ++
        createCommandIdempotencyKey c d, ?_⟩
      simp [run, Daemon.recordResult, hget, Result.map, Except.map]
    | some entry => simp [record?, has_iff_get?.2 ⟨entry, hget⟩] at h
  | acknowledge c d time =>
    cases hhas : journal.entries.has (createCommandIdempotencyKey c d) with
    | false =>
      refine .inl ⟨.done, ?_⟩
      simp [run, Daemon.acknowledge, hhas, Result.map, Except.map]
    | true => simp [record?, hhas] at h

variable {r : JournalRecord}

/-- What is in memory after the record was appended, or after the compaction that follows. -/
theorem run_appends (h : op.record? journal = some r)
    (file : Option (List UInt8)) : ∃ answer journal' disk',
      op.run journal { file, cut := none } = (.ok (answer, journal'), disk') ∧
        (journal' = journal.applied r ∧
            disk'.file = some (file.getD [] ++ line r.toJson) ∨
          ∃ time disk, compact time (journal.applied r) disk = (journal', disk')) := by
  cases op with
  | begin c d type time =>
    cases hhas : journal.entries.has (createCommandIdempotencyKey c d) with
    | true => simp [record?, hhas] at h
    | false =>
      simp only [record?, hhas, Bool.false_eq_true, if_false, Option.some.injEq] at h
      subst h
      simp only [run, Daemon.begin, lookup_eq_none_iff.2 hhas, append]
      exact ⟨.began .new, _, _, rfl, .inl ⟨rfl, rfl⟩⟩
  | recordResult c d response time =>
    cases hget : journal.entries.get? (createCommandIdempotencyKey c d) with
    | none =>
      have hhas := has_eq_false_iff.2 hget
      simp [record?, hhas] at h
    | some entry =>
      have hhas := has_iff_get?.2 ⟨entry, hget⟩
      simp only [record?, hhas, if_true, Option.some.injEq] at h
      subst h
      have hsame : journal.applied (.result (createCommandIdempotencyKey c d) response time) =
          { entries := journal.entries.set (createCommandIdempotencyKey c d)
              { entry with response := some response.value }
            recordCount := journal.recordCount + 1 } := by
        simp [applied, hget]
      simp only [run, Daemon.recordResult, hget, append, hsame]
      by_cases hcount : compactAfterRecords ≤ journal.recordCount + 1
      · rw [if_pos hcount]
        exact ⟨.done, _, _, rfl, .inr ⟨time, _, rfl⟩⟩
      · rw [if_neg hcount]
        exact ⟨.done, _, _, rfl, .inl ⟨rfl, rfl⟩⟩
  | acknowledge c d time =>
    cases hhas : journal.entries.has (createCommandIdempotencyKey c d) with
    | false => simp [record?, hhas] at h
    | true =>
      simp only [record?, hhas, if_true, Option.some.injEq] at h
      subst h
      simp only [run, Daemon.acknowledge, hhas, append, Bool.true_eq_false, if_false,
        applied]
      split
      · exact ⟨.done, _, _, rfl, .inr ⟨time, _, rfl⟩⟩
      · exact ⟨.done, _, _, rfl, .inl ⟨rfl, rfl⟩⟩

theorem run_cut (h : op.record? journal = some r)
    (file : Option (List UInt8)) (n : Nat) : op.run journal { file, cut := some n } =
      (.error .crashed,
        { file := some (file.getD [] ++ (line r.toJson).take n), cut := some n }) := by
  cases op with
  | begin c d type time =>
    cases hhas : journal.entries.has (createCommandIdempotencyKey c d) with
    | true => simp [record?, hhas] at h
    | false =>
      simp only [record?, hhas, Bool.false_eq_true, if_false, Option.some.injEq] at h
      subst h
      simp [run, Daemon.begin, lookup_eq_none_iff.2 hhas, append, Result.map, Except.map]
  | recordResult c d response time =>
    cases hget : journal.entries.get? (createCommandIdempotencyKey c d) with
    | none =>
      have hhas := has_eq_false_iff.2 hget
      simp [record?, hhas] at h
    | some entry =>
      have hhas := has_iff_get?.2 ⟨entry, hget⟩
      simp only [record?, hhas, if_true, Option.some.injEq] at h
      subst h
      simp [run, Daemon.recordResult, hget, append, Result.map, Except.map]
  | acknowledge c d time =>
    cases hhas : journal.entries.has (createCommandIdempotencyKey c d) with
    | false => simp [record?, hhas] at h
    | true =>
      simp only [record?, hhas, if_true, Option.some.injEq] at h
      subst h
      simp [run, Daemon.acknowledge, hhas, append, Result.map, Except.map]

/-! ## Steps -/

def Act.record? (journal : CommandRecoveryJournal) : Act → Option JournalRecord
  | .run op => op.record? journal
  | .crash op _ => op.record? journal
  | _ => none

/-- A step that appends does not append to a line that was cut. -/
def World.Clean (σ : World) (act : Act) : Prop :=
  ∀ journal ∈ σ.journal, (act.record? journal).isSome → JsonLines.Terminated (σ.file.getD [])

/-- The record whose text a step brings to the file. -/
def World.written? (σ : World) (act : Act) : Option JournalRecord :=
  match σ.journal with
  | none => none
  | some journal =>
    match act with
    | .run op => op.record? journal
    | .crash op n => (op.record? journal).filter fun r => r.size ≤ n
    | _ => none

/-- The file holds what an open journal holds. -/
structure World.Holds (σ : World) (journal : CommandRecoveryJournal) : Prop where
  file : load σ.file = .ok journal
  memory : ∀ other ∈ σ.journal, other = journal

theorem holds_new : World.new.Holds .empty := ⟨rfl, fun _ h => by cases h⟩

theorem after_silent (h : op.record? journal = none) (cut : Option Nat) :
    (World.after journal (op.run journal { file, cut })).1 =
      { file := file, journal := some journal } := by
  obtain ⟨answer, hrun⟩ | ⟨message, hrun⟩ := run_silent h { file := file, cut := cut }
  · rw [hrun]
    rfl
  · rw [hrun]
    rfl

variable {σ : World} {act : Act}

/-- A step lets the journal apply the record it brings to the file. -/
theorem step_holds (hσ : σ.Holds journal) (hclean : σ.Clean act) :
    ∃ journal', (σ.step act).1.Holds journal' ∧
      journal'.entries = (match σ.written? act with
        | some r => journal.applied r
        | none => journal).entries := by
  obtain ⟨file, open?⟩ := σ
  obtain ⟨hfile, hmemory⟩ := hσ
  simp only [] at hfile hmemory
  cases open? with
  | none =>
    cases act with
    | start =>
      refine ⟨journal, ⟨?_, ?_⟩, rfl⟩
      · simp only [World.step, hfile]
      · simp only [World.step, hfile]
        simp
    | run | crash => exact ⟨journal, ⟨hfile, hmemory⟩, rfl⟩
    | stop => exact ⟨journal, ⟨hfile, fun _ h => by cases h⟩, rfl⟩
  | some other =>
    have hsame := hmemory other rfl
    subst hsame
    cases act with
    | start =>
      refine ⟨other, ⟨?_, ?_⟩, rfl⟩
      · simp only [World.step, hfile]
      · simp only [World.step, hfile]
        simp
    | run op =>
      cases hr : op.record? other with
      | none =>
        refine ⟨other, ?_, by simp [World.written?, hr]⟩
        show World.Holds (World.after other (op.run other { file, cut := none })).1 other
        rw [after_silent hr]
        exact ⟨hfile, hmemory⟩
      | some r =>
        have ht : JsonLines.Terminated (file.getD []) :=
          hclean other rfl (by simp [Act.record?, hr])
        obtain ⟨answer, journal', disk', hrun, hdone⟩ := run_appends hr file
        refine ⟨journal', ?_, ?_⟩
        · show World.Holds (World.after other (op.run other { file, cut := none })).1 journal'
          rw [hrun]
          refine ⟨?_, fun _ h => by cases h; rfl⟩
          show load disk'.file = .ok journal'
          obtain ⟨rfl, hdisk⟩ | ⟨time, disk, hcompact⟩ := hdone
          · rw [hdisk]
            exact load_write hfile ht r
          · have hv := load_valid (load_write hfile ht r)
            have hload := (load_compact time hv disk).1
            rw [hcompact] at hload
            exact hload
        · simp only [World.written?, hr]
          obtain ⟨rfl, -⟩ | ⟨time, disk, hcompact⟩ := hdone
          · rfl
          · rw [compact] at hcompact
            cases hcompact
            rfl
    | crash op n =>
      cases hr : op.record? other with
      | none =>
        refine ⟨other, ?_, by simp [World.written?, hr]⟩
        show World.Holds (World.after other (op.run other { file, cut := some n })).1 other
        rw [after_silent hr]
        exact ⟨hfile, hmemory⟩
      | some r =>
        have ht : JsonLines.Terminated (file.getD []) :=
          hclean other rfl (by simp [Act.record?, hr])
        refine ⟨if r.size ≤ n then other.applied r else other, ?_, ?_⟩
        · show World.Holds (World.after other (op.run other { file, cut := some n })).1 _
          rw [run_cut hr file n]
          exact ⟨load_cut hfile ht r n, fun _ h => by cases h⟩
        · by_cases hn : r.size ≤ n
          · simp [World.written?, hr, hn, Option.filter]
          · simp [World.written?, hr, hn, Option.filter]
    | stop => exact ⟨other, ⟨hfile, fun _ h => by cases h⟩, rfl⟩

/-! ## Runs in which nothing is appended to a line that was cut -/

def World.CleanRun : World → List Act → Prop
  | _, [] => True
  | σ, act :: acts => σ.Clean act ∧ (σ.step act).1.CleanRun acts

/-- The step acknowledges a command, or the text of the record was written when it crashed. -/
def Act.Acknowledges (c d : String) : Act → Prop
  | .run (.acknowledge c' d' _) => c' = c ∧ d' = d
  | .crash (.acknowledge c' d' time) n =>
    c' = c ∧ d' = d ∧ (JournalRecord.acknowledged (createCommandIdempotencyKey c d) time).size ≤ n
  | _ => False

/-- The step records a result of a command, or the text of the record was written when it crashed. -/
def Act.Records (c d : String) : Act → Prop
  | .run (.recordResult c' d' _ _) => c' = c ∧ d' = d
  | .crash (.recordResult c' d' response time) n =>
    c' = c ∧ d' = d ∧ (JournalRecord.result (createCommandIdempotencyKey c d) response time).size ≤ n
  | _ => False

theorem createCommandIdempotencyKey_injective {c' d' : String}
    (h : createCommandIdempotencyKey c d = createCommandIdempotencyKey c' d') : c = c' ∧ d = d' := by
  have hv := stringify_injective (String.ofList_injective h)
  simpa using hv

def CommandRecoveryJournal.view (journal : CommandRecoveryJournal) (key : String) :
    Option (Option Value) :=
  (journal.entries.get? key).map JournalEntry.response

/-- What a record does to its command. -/
def JournalRecord.effect (state : Option (Option Value)) : JournalRecord → Option (Option Value)
  | .received _ _ _ _ _ => some none
  | .result _ response _ => state.map fun _ => some response.value
  | .acknowledged _ _ => none

theorem view_applied (journal : CommandRecoveryJournal) (r : JournalRecord) (key : String) :
    (journal.applied r).view key =
      if key = r.key then r.effect (journal.view key) else journal.view key := by
  cases r with
  | received key' c d type time =>
    by_cases h : key = key'
    · simp [view, applied, OrderedMap.get?_set, h,
        JournalRecord.key, JournalRecord.effect]
    · simp [view, applied, OrderedMap.get?_set, h,
        JournalRecord.key]
  | result key' response time =>
    cases hget : journal.entries.get? key' with
    | none =>
      by_cases h : key = key'
      · simp [view, applied, hget, h,
          JournalRecord.key, JournalRecord.effect]
      · simp [view, applied, hget, h,
          JournalRecord.key]
    | some entry =>
      by_cases h : key = key'
      · simp [view, applied, hget, h,
          OrderedMap.get?_set, JournalRecord.key, JournalRecord.effect]
      · simp [view, applied, hget, h,
          OrderedMap.get?_set, JournalRecord.key]
  | acknowledged key' time =>
    by_cases h : key = key'
    · simp [view, applied, OrderedMap.get?_delete, h,
        JournalRecord.key, JournalRecord.effect]
    · simp [view, applied, OrderedMap.get?_delete, h,
        JournalRecord.key]

theorem written_cases (h : σ.written? act = some r) :
    ∃ journal ∈ σ.journal, ∃ op, op.record? journal = some r ∧
      (act = .run op ∨ ∃ n, act = .crash op n ∧ r.size ≤ n) := by
  unfold World.written? at h
  cases hj : σ.journal with
  | none => simp [hj] at h
  | some journal =>
    rw [hj] at h
    cases act with
    | start | stop => cases h
    | run op => exact ⟨journal, rfl, op, h, .inl rfl⟩
    | crash op n =>
      obtain ⟨hr, hn⟩ := Option.filter_eq_some_iff.1 h
      exact ⟨journal, rfl, op, hr, .inr ⟨n, rfl, of_decide_eq_true hn⟩⟩

theorem view_eq_none : journal.view (createCommandIdempotencyKey c d) = none ↔
    journal.lookup c d = none := by
  rw [lookup_eq_none_iff, has_eq_false_iff, view, Option.map_eq_none_iff]

theorem written_of_known (h : σ.written? act = some r) (hσ : σ.Holds journal)
    (hkey : createCommandIdempotencyKey c d = r.key)
    (hknown : journal.view (createCommandIdempotencyKey c d) ≠ none) :
    (∃ response time, r = .result r.key response time ∧ act.Records c d) ∨
      (∃ time, r = .acknowledged r.key time ∧ act.Acknowledges c d) := by
  obtain ⟨other, hother, op, hr, hact⟩ := written_cases h
  have hsame := hσ.memory other hother
  subst hsame
  cases op with
  | begin c' d' type time =>
    simp only [record?] at hr
    split at hr
    · cases hr
    · rename_i hhas
      cases hr
      rw [Bool.not_eq_true] at hhas
      obtain ⟨rfl, rfl⟩ := createCommandIdempotencyKey_injective hkey
      exact absurd (view_eq_none.2 (lookup_eq_none_iff.2 hhas)) hknown
  | recordResult c' d' response time =>
    simp only [record?] at hr
    split at hr
    · cases hr
      obtain ⟨rfl, rfl⟩ := createCommandIdempotencyKey_injective hkey
      refine .inl ⟨response, time, rfl, ?_⟩
      obtain rfl | ⟨n, rfl, hn⟩ := hact
      · exact ⟨rfl, rfl⟩
      · exact ⟨rfl, rfl, hn⟩
    · cases hr
  | acknowledge c' d' time =>
    simp only [record?] at hr
    split at hr
    · cases hr
      obtain ⟨rfl, rfl⟩ := createCommandIdempotencyKey_injective hkey
      refine .inr ⟨time, rfl, ?_⟩
      obtain rfl | ⟨n, rfl, hn⟩ := hact
      · exact ⟨rfl, rfl⟩
      · exact ⟨rfl, rfl, hn⟩
    · cases hr

/-- A command that is known stays known until it is acknowledged, and keeps its result. -/
theorem step_view (hσ : σ.Holds journal)
    (hclean : σ.Clean act) (hack : ¬ act.Acknowledges c d)
    (hknown : journal.view (createCommandIdempotencyKey c d) ≠ none) :
    ∃ journal', (σ.step act).1.Holds journal' ∧
      journal'.view (createCommandIdempotencyKey c d) ≠ none ∧
      (¬ act.Records c d → journal'.view (createCommandIdempotencyKey c d) =
        journal.view (createCommandIdempotencyKey c d)) := by
  obtain ⟨journal', hσ', hentries⟩ := step_holds hσ hclean
  refine ⟨journal', hσ', ?_⟩
  have hview : ∀ other : CommandRecoveryJournal, journal'.entries = other.entries →
      journal'.view (createCommandIdempotencyKey c d) =
        other.view (createCommandIdempotencyKey c d) :=
    fun other he => by rw [view, he, view]
  cases hr : σ.written? act with
  | none =>
    rw [hr] at hentries
    rw [hview journal hentries]
    exact ⟨hknown, fun _ => rfl⟩
  | some r =>
    rw [hr] at hentries
    rw [hview (journal.applied r) hentries, view_applied]
    by_cases hkey : createCommandIdempotencyKey c d = r.key
    · rw [if_pos hkey]
      obtain ⟨response, time, he, hrecords⟩ | ⟨time, -, hacks⟩ := written_of_known hr hσ hkey hknown
      · refine ⟨?_, fun hnot => absurd hrecords hnot⟩
        rw [he]
        simpa [JournalRecord.effect] using hknown
      · exact absurd hacks hack
    · rw [if_neg hkey]
      exact ⟨hknown, fun _ => rfl⟩

variable {acts : List Act}

theorem runs_view : ∀ {σ : World} {journal : CommandRecoveryJournal},
    σ.Holds journal → σ.CleanRun acts → (∀ act ∈ acts, ¬ act.Acknowledges c d) →
    journal.view (createCommandIdempotencyKey c d) ≠ none →
    ∃ journal', (σ.runs acts).Holds journal' ∧
      journal'.view (createCommandIdempotencyKey c d) ≠ none ∧
      ((∀ act ∈ acts, ¬ act.Records c d) → journal'.view (createCommandIdempotencyKey c d) =
        journal.view (createCommandIdempotencyKey c d)) := by
  induction acts with
  | nil =>
    intro σ journal hσ _ _ hknown
    exact ⟨journal, hσ, hknown, fun _ => rfl⟩
  | cons act acts ih =>
    intro σ journal hσ hclean hacks hknown
    obtain ⟨mid, hmid, hknown', hsame⟩ :=
      step_view hσ hclean.1 (hacks act mem_cons_self) hknown
    obtain ⟨journal', hσ', hknown'', hsame'⟩ :=
      ih hmid hclean.2 (fun a ha => hacks a (mem_cons_of_mem _ ha)) hknown'
    refine ⟨journal', hσ', hknown'', fun hrecords => ?_⟩
    rw [hsame' fun a ha => hrecords a (mem_cons_of_mem _ ha),
      hsame (hrecords act mem_cons_self)]

theorem runs_holds : ∀ {σ : World} {journal : CommandRecoveryJournal},
    σ.Holds journal → σ.CleanRun acts → ∃ journal', (σ.runs acts).Holds journal' := by
  induction acts with
  | nil =>
    intro σ journal hσ _
    exact ⟨journal, hσ⟩
  | cons act acts ih =>
    intro σ journal hσ hclean
    obtain ⟨mid, hmid, -⟩ := step_holds hσ hclean.1
    exact ih hmid hclean.2

theorem cleanRun_append {acts' : List Act} : ∀ {σ : World},
    σ.CleanRun (acts ++ acts') → σ.CleanRun acts ∧ (σ.runs acts).CleanRun acts' := by
  induction acts with
  | nil =>
    intro σ h
    exact ⟨trivial, h⟩
  | cons act acts ih =>
    intro σ h
    obtain ⟨h₁, h₂⟩ := ih h.2
    exact ⟨⟨h.1, h₁⟩, h₂⟩

/-- What `begin` answers about a command. -/
def answerOf : Option (Option Value) → CommandJournalBeginResult
  | none => .new
  | some none => .pending
  | some (some response) => .complete response

theorem step_begin (σ : World) (hσ : σ.Holds journal) (c d type time : String) :
    (σ.step (.run (.begin c d type time))).2 =
      if σ.journal.isSome then
        some (.began (answerOf (journal.view (createCommandIdempotencyKey c d))))
      else none := by
  obtain ⟨file, open?⟩ := σ
  cases open? with
  | none => rfl
  | some other =>
    have hsame := hσ.memory other rfl
    subst hsame
    simp only [Option.isSome_some, if_true, view]
    cases hget : other.entries.get? (createCommandIdempotencyKey c d) with
    | none =>
      simp [World.step, run, Daemon.begin, CommandRecoveryJournal.lookup, hget, append, Result.map,
        Except.map, World.after, answerOf]
    | some entry =>
      obtain ⟨received, response⟩ := entry
      cases response with
      | none =>
        simp [World.step, run, Daemon.begin, CommandRecoveryJournal.lookup, hget, Result.map,
          Except.map, World.after, answerOf]
      | some response =>
        simp [World.step, run, Daemon.begin, CommandRecoveryJournal.lookup, hget, Result.map,
          Except.map, World.after, answerOf]

theorem known_of_begin {type time : String} (hσ : σ.Holds journal)
    (hclean : σ.Clean (.run (.begin c d type time)))
    (hnew : (σ.step (.run (.begin c d type time))).2 = some (.began .new)) :
    ∃ journal', (σ.step (.run (.begin c d type time))).1.Holds journal' ∧
      journal'.view (createCommandIdempotencyKey c d) ≠ none := by
  obtain ⟨journal', hσ', hentries⟩ := step_holds hσ hclean
  refine ⟨journal', hσ', ?_⟩
  rw [step_begin σ hσ] at hnew
  cases hopen : σ.journal with
  | none => simp [hopen] at hnew
  | some other =>
    have hsame := hσ.memory other hopen
    subst hsame
    have hview : other.view (createCommandIdempotencyKey c d) = none := by
      cases hv : other.view (createCommandIdempotencyKey c d) with
      | none => rfl
      | some state =>
        rw [hv] at hnew
        cases state with
        | none | some => simp [hopen, answerOf] at hnew
    have hhas := lookup_eq_none_iff.1 (view_eq_none.1 hview)
    have hwritten : σ.written? (.run (.begin c d type time)) =
        some (.received (createCommandIdempotencyKey c d) c d type time) := by
      simp [World.written?, hopen, record?, hhas]
    rw [hwritten] at hentries
    rw [view, hentries]
    simp [applied, OrderedMap.get?_set]

theorem kept_of_recordResult {time : String} {response : DaemonResponse}
    (hσ : σ.Holds journal) (hclean : σ.Clean (.run (.recordResult c d response time)))
    (hdone : (σ.step (.run (.recordResult c d response time))).2 = some .done) :
    ∃ journal', (σ.step (.run (.recordResult c d response time))).1.Holds journal' ∧
      journal'.view (createCommandIdempotencyKey c d) = some (some response.value) := by
  obtain ⟨journal', hσ', hentries⟩ := step_holds hσ hclean
  refine ⟨journal', hσ', ?_⟩
  cases hopen : σ.journal with
  | none => simp [World.step, hopen] at hdone
  | some other =>
    have hsame := hσ.memory other hopen
    subst hsame
    cases hget : other.entries.get? (createCommandIdempotencyKey c d) with
    | none =>
      simp [World.step, hopen, run, Daemon.recordResult, hget, Result.map, Except.map,
        World.after] at hdone
    | some entry =>
      have hhas := has_iff_get?.2 ⟨entry, hget⟩
      have hwritten : σ.written? (.run (.recordResult c d response time)) =
          some (.result (createCommandIdempotencyKey c d) response time) := by
        simp [World.written?, hopen, record?, hhas]
      rw [hwritten] at hentries
      rw [view, hentries]
      simp [applied, hget, OrderedMap.get?_set]

/-- In a run that never appends to a line that was cut, and after which the journal can be opened: a
command that was new is not new again, and the result that was last recorded is the answer to it,
until it is acknowledged. -/
theorem journal_remembers {before later : List Act} {act : Act} {c d : String}
    (hclean : World.new.CleanRun (before ++ act :: later))
    (hacks : ∀ a ∈ later, ¬ a.Acknowledges c d) (type' time' : String) :
    (((World.new.runs (before ++ act :: later)).step .start).1.journal).isSome ∧
      (∀ type time, act = .run (.begin c d type time) →
        ((World.new.runs before).step act).2 = some (.began .new) →
        ((World.new.runs (before ++ act :: later)).step (.run (.begin c d type' time'))).2 ≠
          some (.began .new)) ∧
      (∀ response time, act = .run (.recordResult c d response time) →
        ((World.new.runs before).step act).2 = some .done → (∀ a ∈ later, ¬ a.Records c d) →
        ((World.new.runs (before ++ act :: later)).step (.run (.begin c d type' time'))).2 =
          if (World.new.runs (before ++ act :: later)).journal.isSome then
            some (.began (.complete response.value))
          else none) := by
  obtain ⟨hbefore, hact, hlater⟩ := cleanRun_append hclean
  obtain ⟨journal, hσ⟩ := runs_holds holds_new hbefore
  have hruns : World.new.runs (before ++ act :: later) =
      (((World.new.runs before).step act).1).runs later := by
    rw [World.runs, foldl_append]
    rfl
  refine ⟨?_, ?_, ?_⟩
  · obtain ⟨journal', hσ'⟩ := runs_holds holds_new hclean
    simp [World.step, hσ'.file]
  · rintro type time rfl hnew
    obtain ⟨mid, hmid, hknown⟩ := known_of_begin hσ hact hnew
    obtain ⟨journal', hσ', hknown', -⟩ := runs_view hmid hlater hacks hknown
    rw [hruns, step_begin _ hσ']
    cases hv : journal'.view (createCommandIdempotencyKey c d) with
    | none => exact absurd hv hknown'
    | some state =>
      intro h
      split at h
      · cases state with
        | none | some => cases h
      · cases h
  · rintro response time rfl hdone hrecords
    obtain ⟨mid, hmid, hkept⟩ := kept_of_recordResult hσ hact hdone
    obtain ⟨journal', hσ', -, hsame⟩ := runs_view hmid hlater hacks (by rw [hkept]; simp)
    rw [hruns, step_begin _ hσ', hsame hrecords, hkept]
    rfl

/-- A command that is received, whose result is cut off, and that is asked for by a new process. -/
theorem journal_remembers_pending :
    ((World.new.runs [.start, .run (.begin "c" "1" "prompt" "t"),
        .crash (.recordResult "c" "1" ⟨.object [("type", .string "response")], by decide⟩ "t") 5,
        .start]).step (.run (.begin "c" "1" "prompt" "u"))).2 ≠ some (.began .new) := by
  refine (@journal_remembers [.start]
    [.crash (.recordResult "c" "1" ⟨.object [("type", .string "response")], by decide⟩ "t") 5, .start]
    (.run (.begin "c" "1" "prompt" "t")) _ _ ⟨?_, ?_, ?_, ?_, trivial⟩ ?_ "prompt" "u").2.1
      "prompt" "t" rfl ?_
  · intro journal hj
    cases hj
  · intro journal hj _
    exact .inl rfl
  · intro journal hj _
    exact terminated_append_line [] _
  · intro journal hj
    cases hj
  · intro a ha
    simp only [mem_cons, not_mem_nil, or_false] at ha
    obtain rfl | rfl := ha
    · exact id
    · exact id
  · rfl

/-- Restarts are not seen: what a process that is started anew replays is the journal that was open, so that it answers
every call as the old one would, and compacts when the old one would. -/
theorem restart_of_run {acts : List Act} (hclean : World.new.CleanRun acts)
    (hopen : (World.new.runs acts).journal.isSome = true) :
    (((World.new.runs acts).step .stop).1.step .start).1 = World.new.runs acts := by
  obtain ⟨journal, hfile, hmemory⟩ := runs_holds holds_new hclean
  revert hfile hmemory hopen
  generalize World.new.runs acts = σ
  intro hopen hfile hmemory
  obtain ⟨other, hother⟩ := Option.isSome_iff_exists.1 hopen
  obtain rfl := hmemory other hother
  cases σ
  simp only at hother hfile
  simp only [World.step, hfile, hother]

theorem restart_of_run_received :
    (((World.new.runs [.start, .run (.begin "c" "1" "prompt" "t")]).step .stop).1.step .start).1 =
      World.new.runs [.start, .run (.begin "c" "1" "prompt" "t")] := by
  refine restart_of_run ⟨fun journal hj => (nomatch hj), fun journal hj _ => .inl rfl, trivial⟩ rfl

def Answer.isNew : Option Answer → Bool
  | some (.began .new) => true
  | _ => false

/-- A receipt that is cut off, and two processes that ask for the command after it: its receipt is
appended to the cut line, is not read, and the command is new to both. -/
theorem journal_forgets :
    Answer.isNew ((World.new.runs [.start, .crash (.begin "c" "1" "prompt" "t") 10, .start]).step
        (.run (.begin "c" "2" "prompt" "t"))).2 = true ∧
      Answer.isNew ((World.new.runs [.start, .crash (.begin "c" "1" "prompt" "t") 10, .start,
        .run (.begin "c" "2" "prompt" "t"), .stop, .start]).step
          (.run (.begin "c" "2" "prompt" "u"))).2 = true := by
  constructor
  · decide +kernel
  · decide +kernel

end

end Daemon
end RePrime
