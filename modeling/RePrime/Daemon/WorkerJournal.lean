import RePrime.Daemon.CommandJournal

/-!
# RePrime.Daemon.WorkerJournal

`WorkerRecoveryJournal`: what each session of a worker was doing, one record at a time in an
append-only file, of which the last record of a session counts.

* `World.step`: opening, a record, a record whose append is cut off by a crash, the end of the process.
* `step_holds`: what a step does to the records that are read.
* `readLatest_of_cleanRun`: in a run in which nothing is appended to a line that was cut, what is read is
  the last record that was written of each session.
-/

namespace RePrime
namespace Daemon
namespace WorkerRecovery

open Json List
open OrderedMap
open JsonLines

/-! ## Records -/

/-- What a caller gives of a record. -/
structure Input where
  activeSessionId : String
  sessionId : String
  sessionFile : Option String
  busy : Bool
  operation : String

def Input.fields (input : Input) (recordedAt : String) : List (String × Value) :=
  [("version", Value.int 1), ("activeSessionId", .string input.activeSessionId),
      ("sessionId", .string input.sessionId)] ++
    (input.sessionFile.map fun file => ("sessionFile", Value.string file)).toList ++
    [("busy", Value.bool input.busy), ("operation", .string input.operation),
      ("recordedAt", .string recordedAt)]

def Input.toJson (input : Input) (recordedAt : String) : Value := .object (input.fields recordedAt)

def boolField (key : String) (v : Value) : Option Bool :=
  match field key v with
  | some (.bool b) => some b
  | _ => none

/-- The latest record of each session, by its active session. -/
abbrev Latest : Type := OrderedMap String Value

/-- A record that a load keeps, beside its active session. -/
def isRecord (v : Value) : Bool :=
  (field "version" v).bind Value.toInt? = some 1 ∧ (stringField "sessionId" v).isSome ∧
    (boolField "busy" v).isSome ∧ (stringField "operation" v).isSome

/-- One line that was parsed; reading a property of `null` throws. -/
def parseRecord (latest : Latest) (record : Value) : Except String Latest :=
  match record with
  | .null => .error "Cannot read properties of null (reading 'version')"
  | record =>
    match stringField "activeSessionId" record with
    | none => .ok latest
    | some activeSessionId =>
      if isRecord record then .ok (latest.set activeSessionId record) else .ok latest

/-- A file that does not exist holds no records. -/
def parseRecords (file : Option (List UInt8)) : Except String Latest :=
  match file with
  | none => .ok .empty
  | some bytes => (values bytes).foldlM parseRecord .empty

/-! ## Operations -/

/-- The record that is kept says the same of its session. -/
def unchanged (previous : Value) (input : Input) : Bool :=
  decide (boolField "busy" previous = some input.busy) &&
    decide (stringField "operation" previous = some input.operation) &&
    match field "sessionFile" previous, input.sessionFile with
    | none, none => true
    | some (.string file), some file' => decide (file = file')
    | _, _ => false

def append (record : Value) (disk : Disk) : Except Failure Unit × Disk :=
  match disk.cut with
  | none => (.ok (), { disk with file := some (disk.file.getD [] ++ line record) })
  | some n =>
    (.error .crashed, { disk with file := some (disk.file.getD [] ++ (line record).take n) })

def compact (latest : Latest) (disk : Disk) : Disk :=
  { disk with file := some (joined (latest.entries.map Prod.snd)) }

def record (input : Input) (recordedAt : String) (latest : Latest) (disk : Disk) :
    Except Failure Latest × Disk :=
  if (latest.get? input.activeSessionId).any (fun previous => unchanged previous input) then
    (.ok latest, disk)
  else
    let record := input.toJson recordedAt
    match append record disk with
    | (.error e, disk) => (.error e, disk)
    | (.ok _, disk) =>
      let latest := latest.set input.activeSessionId record
      if latest.entries.all fun e => boolField "busy" e.2 = some false then
        (.ok latest, compact latest disk)
      else (.ok latest, disk)

def getLatest (latest : Latest) : List Value := latest.entries.map Prod.snd

def readLatest (file : Option (List UInt8)) : Except String (List Value) :=
  (parseRecords file).map getLatest

/-! ## Runs -/

/-- The file, and the journal of the process that has it open. -/
structure World where
  file : Option (List UInt8)
  journal : Option Latest

def World.new : World := { file := none, journal := none }

inductive Act where
  | start
  | record (input : Input) (recordedAt : String)
  | crash (input : Input) (recordedAt : String) (written : Nat)
  | stop

def World.after (r : Except Failure Latest × Disk) : World where
  file := r.2.file
  journal := r.1.toOption

def World.step (σ : World) : Act → World
  | .start => { σ with journal := (parseRecords σ.file).toOption }
  | .record input recordedAt =>
    match σ.journal with
    | none => σ
    | some latest =>
      World.after (WorkerRecovery.record input recordedAt latest { file := σ.file, cut := none })
  | .crash input recordedAt n =>
    match σ.journal with
    | none => σ
    | some latest =>
      World.after (WorkerRecovery.record input recordedAt latest { file := σ.file, cut := some n })
  | .stop => { σ with journal := none }

def World.runs (σ : World) (acts : List Act) : World := acts.foldl World.step σ

/-! ## What is read -/

section

variable {latest : Latest} {file : Option (List UInt8)}

theorem isRecord_toJson (input : Input) (time : String) : isRecord (input.toJson time) = true := by
  obtain ⟨activeSessionId, sessionId, sessionFile, busy, operation⟩ := input
  cases sessionFile with
  | none =>
    simp [isRecord, Input.toJson, Input.fields, stringField, boolField, field, lookup_cons]
  | some path =>
    simp [isRecord, Input.toJson, Input.fields, stringField, boolField, field, lookup_cons]

theorem stringField_toJson (input : Input) (time : String) :
    stringField "activeSessionId" (input.toJson time) = some input.activeSessionId := by
  obtain ⟨activeSessionId, sessionId, sessionFile, busy, operation⟩ := input
  cases sessionFile with
  | none | some => simp [Input.toJson, Input.fields, stringField, field, lookup_cons]

/-- A record that is kept for a session. -/
structure Kept (activeSessionId : String) (v : Value) : Prop where
  id : stringField "activeSessionId" v = some activeSessionId
  isRecord : isRecord v = true

theorem kept_toJson (input : Input) (time : String) : Kept input.activeSessionId (input.toJson time) :=
  ⟨stringField_toJson input time, isRecord_toJson input time⟩

theorem parseRecord_kept {id : String} {v : Value} (h : Kept id v) (latest : Latest) :
    parseRecord latest v = .ok (latest.set id v) := by
  unfold parseRecord
  split
  · have hid := h.id
    cases hid
  · simp only [h.id, h.isRecord, if_true]

def Valid (latest : Latest) : Prop := ∀ e ∈ latest.entries, Kept e.1 e.2

theorem valid_set {id : String} {v : Value} (hv : Valid latest) (h : Kept id v) : Valid (latest.set id v) := by
  intro e he
  obtain rfl | he := mem_entries_set he
  · exact h
  · exact hv e he

theorem parseRecords_eq (file : Option (List UInt8)) :
    parseRecords file = (values (file.getD [])).foldlM parseRecord .empty := by
  cases file with
  | none | some => rfl

theorem parseRecords_append (hfile : parseRecords file = .ok latest)
    (ht : JsonLines.Terminated (file.getD [])) (bytes : List UInt8) : parseRecords (some (file.getD [] ++ bytes)) =
      (values bytes).foldlM parseRecord latest := by
  rw [parseRecords_eq] at hfile
  rw [parseRecords_eq, Option.getD_some, values_append ht, foldlM_append, hfile]
  rfl

def Input.size (input : Input) (time : String) : Nat :=
  (Utf8.encode (stringify (input.toJson time))).length

theorem parseRecords_write (hfile : parseRecords file = .ok latest)
    (ht : JsonLines.Terminated (file.getD [])) (input : Input) (time : String) :
    parseRecords (some (file.getD [] ++ line (input.toJson time))) =
      .ok (latest.set input.activeSessionId (input.toJson time)) := by
  rw [parseRecords_append hfile ht, values_line, foldlM_cons, parseRecord_kept (kept_toJson input time)]
  rfl

/-- After the first bytes of a record: it was written when its text was. -/
theorem parseRecords_cut (hfile : parseRecords file = .ok latest)
    (ht : JsonLines.Terminated (file.getD [])) (input : Input) (time : String) (n : Nat) :
    parseRecords (some (file.getD [] ++ (line (input.toJson time)).take n)) =
      .ok (if input.size time ≤ n then latest.set input.activeSessionId (input.toJson time) else latest) := by
  rw [parseRecords_append hfile ht, Input.toJson, values_take]
  show List.foldlM parseRecord latest (if input.size time ≤ n then _ else _) = _
  split
  · rw [foldlM_cons, ← Input.toJson, parseRecord_kept (kept_toJson input time)]
    rfl
  · rfl

theorem foldlM_kept {l : List (String × Value)} : ∀ {latest : Latest},
    (∀ e ∈ l, Kept e.1 e.2) → ((latest.entries ++ l).map Prod.fst).Nodup →
    ∃ latest', (l.map Prod.snd).foldlM parseRecord latest = .ok latest' ∧
      latest'.entries = latest.entries ++ l := by
  induction l with
  | nil =>
    intro latest _ _
    exact ⟨latest, rfl, (append_nil _).symm⟩
  | cons e l ih =>
    intro latest hkept hn
    have hfresh : latest.has e.1 = false := by
      refine decide_eq_false fun hmem => ?_
      rw [map_append, map_cons, nodup_append'] at hn
      exact hn.2.2 hmem mem_cons_self
    have hentries := set_of_not_has hfresh e.2
    have hn' : (((latest.set e.1 e.2).entries ++ l).map Prod.fst).Nodup := by
      rw [hentries, append_assoc]
      exact hn
    obtain ⟨latest', hl, hentries'⟩ := ih (fun e' he' => hkept e' (mem_cons_of_mem _ he')) hn'
    refine ⟨latest', ?_, ?_⟩
    · rw [map_cons, foldlM_cons, parseRecord_kept (hkept e mem_cons_self)]
      exact hl
    · rw [hentries', hentries, append_assoc]
      rfl

theorem parseRecords_compact (hv : Valid latest) (disk : Disk) :
    parseRecords (compact latest disk).file = .ok latest := by
  obtain ⟨latest', hl, hentries⟩ := @foldlM_kept _ .empty hv latest.nodup
  show (values (joined _)).foldlM parseRecord .empty = _
  rw [values_joined, hl, ext_entries hentries]

/-! ## Steps -/

/-- A call that appends a record. -/
def Appends (latest : Latest) (input : Input) : Bool :=
  !(latest.get? input.activeSessionId).any fun previous => unchanged previous input

theorem record_silent {input : Input} (h : Appends latest input = false) (time : String)
    (disk : Disk) : record input time latest disk = (.ok latest, disk) := by
  rw [Appends, Bool.not_eq_false'] at h
  rw [record, if_pos h]

theorem record_appends {input : Input} (h : Appends latest input = true) (time : String)
    (file : Option (List UInt8)) : ∃ disk', record input time latest { file, cut := none } =
        (.ok (latest.set input.activeSessionId (input.toJson time)), disk') ∧
      (disk'.file = some (file.getD [] ++ line (input.toJson time)) ∨
        ∃ disk, disk' = compact (latest.set input.activeSessionId (input.toJson time)) disk) := by
  rw [Appends, Bool.not_eq_true'] at h
  rw [record, if_neg (by rw [h]; simp)]
  simp only [append]
  split
  · exact ⟨_, rfl, .inr ⟨_, rfl⟩⟩
  · exact ⟨_, rfl, .inl rfl⟩

theorem record_cut {input : Input} (h : Appends latest input = true) (time : String)
    (file : Option (List UInt8)) (n : Nat) : record input time latest { file, cut := some n } =
      (.error .crashed,
        { file := some (file.getD [] ++ (line (input.toJson time)).take n),
          cut := some n }) := by
  rw [Appends, Bool.not_eq_true'] at h
  rw [record, if_neg (by rw [h]; simp)]
  rfl

/-- A step that appends does not append to a line that was cut. -/
def World.Clean (σ : World) : Act → Prop
  | .record input _ =>
    ∀ latest ∈ σ.journal, Appends latest input = true → JsonLines.Terminated (σ.file.getD [])
  | .crash input _ _ =>
    ∀ latest ∈ σ.journal, Appends latest input = true → JsonLines.Terminated (σ.file.getD [])
  | _ => True

/-- The record that a step writes completely, and its session. -/
def World.written? (σ : World) : Act → Option (String × Value)
  | .record input time =>
    match σ.journal with
    | none => none
    | some latest =>
      if Appends latest input then some (input.activeSessionId, input.toJson time) else none
  | .crash input time n =>
    match σ.journal with
    | none => none
    | some latest =>
      if Appends latest input ∧ input.size time ≤ n then
        some (input.activeSessionId, input.toJson time)
      else none
  | _ => none

/-- The file holds what an open journal holds. -/
structure World.Holds (σ : World) (latest : Latest) : Prop where
  file : parseRecords σ.file = .ok latest
  memory : ∀ other ∈ σ.journal, other = latest
  valid : Valid latest

theorem holds_new : World.new.Holds .empty :=
  ⟨rfl, fun _ h => by (cases h), fun _ h => by (cases h)⟩

def added (latest : Latest) : Option (String × Value) → Latest
  | none => latest
  | some e => latest.set e.1 e.2

theorem step_holds {σ : World} {act : Act} (hσ : σ.Holds latest) (hclean : σ.Clean act) :
    (σ.step act).Holds (added latest (σ.written? act)) := by
  obtain ⟨file, open?⟩ := σ
  obtain ⟨hfile, hmemory, hv⟩ := hσ
  simp only [] at hfile hmemory
  cases act with
  | start =>
    refine ⟨hfile, ?_, hv⟩
    intro other hother
    simp only [World.step, hfile, Except.toOption, Option.mem_some_iff] at hother
    exact hother.symm
  | stop => exact ⟨hfile, fun _ h => by (cases h), hv⟩
  | record input time =>
    cases open? with
    | none => exact ⟨hfile, hmemory, hv⟩
    | some other =>
      have hsame := hmemory other rfl
      subst hsame
      simp only [World.step, World.written?]
      cases happ : Appends other input with
      | false =>
        rw [record_silent happ]
        exact ⟨hfile, hmemory, hv⟩
      | true =>
        have ht : JsonLines.Terminated (file.getD []) := hclean other rfl happ
        obtain ⟨disk', hrecord, hdone⟩ := record_appends happ time file
        rw [hrecord]
        have hv' := valid_set hv (kept_toJson input time)
        refine ⟨?_, fun _ h => by cases h; rfl, hv'⟩
        show parseRecords disk'.file = _
        obtain hdisk | ⟨disk, rfl⟩ := hdone
        · rw [hdisk]
          exact parseRecords_write hfile ht input time
        · exact parseRecords_compact hv' disk
  | crash input time n =>
    cases open? with
    | none => exact ⟨hfile, hmemory, hv⟩
    | some other =>
      have hsame := hmemory other rfl
      subst hsame
      simp only [World.step, World.written?]
      cases happ : Appends other input with
      | false =>
        rw [record_silent happ]
        exact ⟨hfile, hmemory, hv⟩
      | true =>
        have ht : JsonLines.Terminated (file.getD []) := hclean other rfl happ
        rw [record_cut happ]
        have hcut := parseRecords_cut hfile ht input time n
        by_cases hn : input.size time ≤ n
        · rw [if_pos hn] at hcut
          simp only [hn, and_self, if_true]
          exact ⟨hcut, fun _ h => by (cases h), valid_set hv (kept_toJson input time)⟩
        · rw [if_neg hn] at hcut
          simp only [hn, and_false, if_false]
          exact ⟨hcut, fun _ h => by (cases h), hv⟩

/-! ## Runs in which nothing is appended to a line that was cut -/

def World.CleanRun : World → List Act → Prop
  | _, [] => True
  | σ, act :: acts => σ.Clean act ∧ (σ.step act).CleanRun acts

/-- The records that a run writes completely, beside their sessions. -/
def World.written : World → List Act → List (String × Value)
  | _, [] => []
  | σ, act :: acts => (σ.written? act).toList ++ (σ.step act).written acts

/-- The last record of a session. -/
def lastOf (id : String) (records : List (String × Value)) : Option Value :=
  (records.reverse.find? fun e => e.1 = id).map Prod.snd

theorem lastOf_concat (id : String) (records : List (String × Value)) (e : String × Value) :
    lastOf id (records ++ [e]) = if id = e.1 then some e.2 else lastOf id records := by
  rw [lastOf, reverse_append, reverse_singleton, singleton_append, find?_cons]
  by_cases h : id = e.1
  · simp [h]
  · simp [lastOf, h, Ne.symm h]

theorem get?_ofList (id : String) (records : List (String × Value)) :
    (ofList records).get? id = lastOf id records := by
  induction records using reverseRecOn with
  | nil => rfl
  | append_singleton records e ih => rw [ofList_concat, get?_set, lastOf_concat, ih]

theorem runs_holds {acts : List Act} : ∀ {σ : World} {records : List (String × Value)},
    σ.Holds (ofList records) → σ.CleanRun acts → (σ.runs acts).Holds (ofList (records ++ σ.written acts)) := by
  induction acts with
  | nil =>
    intro σ records hσ _
    rw [World.written, append_nil]
    exact hσ
  | cons act acts ih =>
    intro σ records hσ hclean
    have hstep := step_holds hσ hclean.1
    have hadded : added (ofList records) (σ.written? act) =
        ofList (records ++ (σ.written? act).toList) := by
      cases σ.written? act with
      | none => rw [Option.toList_none, append_nil, added]
      | some e => rw [Option.toList_some, ofList_concat, added]
    rw [hadded] at hstep
    rw [World.written, ← append_assoc]
    exact ih hstep hclean.2

/-- In a run that never appends to a line that was cut, what is read is the last record that was
completely written of each session. -/
theorem readLatest_of_cleanRun {acts : List Act} (hclean : World.new.CleanRun acts) :
    ∃ latest : Latest, readLatest (World.new.runs acts).file = .ok (latest.entries.map Prod.snd) ∧
      ∀ id, latest.get? id = lastOf id (World.new.written acts) := by
  have hruns := @runs_holds _ _ [] holds_new hclean
  refine ⟨_, ?_, fun id => get?_ofList id _⟩
  rw [readLatest, hruns.file]
  rfl

/-- A record of a session, and a second one that is cut off. -/
theorem readLatest_of_cleanRun_torn : ∃ latest : Latest,
      readLatest (World.new.runs [.start, .record ⟨"a", "s", none, true, "prompt"⟩ "t",
        .crash ⟨"a", "s", none, false, "ready"⟩ "u" 20, .start]).file = .ok (latest.entries.map Prod.snd) ∧
      ∀ id, latest.get? id = lastOf id (World.new.written [.start, .record ⟨"a", "s", none, true, "prompt"⟩ "t",
        .crash ⟨"a", "s", none, false, "ready"⟩ "u" 20, .start]) := by
  refine readLatest_of_cleanRun ⟨trivial, ?_, ?_, trivial, trivial⟩
  · intro latest _ _
    exact .inl rfl
  · intro latest _ _
    exact terminated_append_line [] _

/-- The record after one that was cut off is glued to it, and is not read. -/
theorem readLatest_hides :
    (readLatest (World.new.runs [.start, .crash ⟨"a", "s", none, true, "prompt"⟩ "t" 20, .start,
        .record ⟨"b", "s", none, true, "prompt"⟩ "u"]).file).map List.length = .ok 0 ∧
      (World.new.written [.start, .crash ⟨"a", "s", none, true, "prompt"⟩ "t" 20, .start,
        .record ⟨"b", "s", none, true, "prompt"⟩ "u"]).map Prod.fst = ["b"] := by
  constructor
  · decide +kernel
  · decide +kernel

end

end WorkerRecovery
end Daemon
end RePrime
