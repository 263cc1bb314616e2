import Mathlib.Data.List.Forall2
import RePrime.Session.Invariant

/-!
# RePrime.Session.Migrate

Session files of version 1, whose entries have no ids and no parents, and whose compactions name the
first entry they keep by its index in the file.

* `migrateV1ToV2`: draws ids, links the entries in file order, and turns indices into ids.
* `linearMessages`: the context of the file as it was.
* `migrate_keeps_iff`: when the migrated session is what the file was.
-/

namespace RePrime
namespace Session

open List Option
open Json (Value)

/-! ## Files of version 1 -/

structure V1Compaction where
  summary : String
  firstKeptEntryIndex : Nat
  tokensBefore : Int
  details : Option Value
  fromHook : Option Bool
  customInstructions : Option String
  usage : Option Usage
  harnessDigest : Option String
  harnessStateFingerprint : Option String

/-- What an entry holds: a compaction with an index, or anything else. -/
inductive V1Body where
  | compaction (c : V1Compaction)
  | other (body : EntryBody) (plain : ∀ c, body ≠ .compaction c)

structure V1Entry where
  timestamp : String
  body : V1Body

inductive V1FileEntry where
  | session (h : SessionHeader)
  | entry (e : V1Entry)

open V1FileEntry

def V1Compaction.migrated (c : V1Compaction) (firstKeptEntryId : String) : Compaction :=
  { summary := c.summary
    firstKeptEntryId
    tokensBefore := c.tokensBefore
    details := c.details
    fromHook := c.fromHook
    customInstructions := c.customInstructions
    usage := c.usage
    harnessDigest := c.harnessDigest
    harnessStateFingerprint := c.harnessStateFingerprint }

/-- The id of `entries[index]` while the loop is at the entry with `id` behind `done`. Later entries
have none yet, headers are left out; the empty string stands for `undefined`. -/
def targetId (done : List FileEntry) (id : String) (index : Nat) : String :=
  if index = done.length then id
  else
    match done[index]? with
    | some (.entry e) => e.id
    | _ => ""

def V1Body.migrated (done : List FileEntry) (id : String) : V1Body → EntryBody
  | .compaction c => .compaction (c.migrated (targetId done id c.firstKeptEntryIndex))
  | .other body _ => body

structure Migration where
  done : List FileEntry
  prevId : Option String

open Migration

/-- `draw n` are the UUIDs that are drawn for the entry at position `n`. Nothing is ever added to the
set `ids`. -/
def Migration.step (draw : Nat → Nat → Uuid) (s : Migration) : V1FileEntry → Migration
  | .session h => { s with done := s.done ++ [FileEntry.session { h with version := some 2 }] }
  | .entry e =>
    let ids : String → Bool := fun _ => false
    let id := generateId ids (draw s.done.length)
    { done := s.done ++
        [FileEntry.entry { id, parentId := s.prevId, timestamp := e.timestamp, body := e.body.migrated s.done id }]
      prevId := some id }

def Migration.run (draw : Nat → Nat → Uuid) (entries : List V1FileEntry) : Migration :=
  entries.foldl (step draw) { done := [], prevId := none }

def migrateV1ToV2 (draw : Nat → Nat → Uuid) (entries : List V1FileEntry) : List FileEntry :=
  (run draw entries).done

/-! ## The context before and after -/

/-- The message of an entry, as `buildSessionContext` would take it. -/
def V1FileEntry.message? : V1FileEntry → Option AgentMessage
  | .session _ => none
  | .entry e =>
    match e.body with
    | .compaction _ => none
    | .other body _ => messageOf { id := "", parentId := none, timestamp := e.timestamp, body }

def V1FileEntry.compaction? : V1FileEntry → Option (V1Entry × V1Compaction)
  | .session _ => none
  | .entry e =>
    match e.body with
    | .compaction c => some (e, c)
    | .other _ _ => none

/-- The newest compaction of a file, with its index. -/
def lastV1Compaction (entries : List V1FileEntry) : Option (Nat × V1Entry × V1Compaction) :=
  entries.zipIdx.reverse.findSome? fun f => f.1.compaction?.map fun c => (f.2, c)

/-- The context of a file read from front to back: the last summary, the messages from the index it
names on, and those behind it. -/
def linearMessages (entries : List V1FileEntry) : List AgentMessage :=
  match lastV1Compaction entries with
  | none => entries.filterMap message?
  | some (position, e, c) =>
    let kept := ((entries.take position).drop c.firstKeptEntryIndex).filterMap message?
    createCompactionSummaryMessage c.summary c.tokensBefore e.timestamp c.customInstructions
        (some kept.length) c.harnessDigest c.harnessStateFingerprint ::
      (kept ++ (entries.drop (position + 1)).filterMap message?)

/-- The entries of a file. -/
def entriesOf (entries : List FileEntry) : List SessionEntry := entries.filterMap FileEntry.entry?

/-- The context of a loaded file, at its last entry. -/
def loadedMessages (entries : List FileEntry) : Option (List AgentMessage) :=
  (buildSessionContext entries
    (match (entriesOf entries).getLast? with
      | none => .null
      | some e => .id e.id)
    (indexById (entriesOf entries))).map SessionContext.messages

/-! ## The loop -/

section

variable (draw : Nat → Nat → Uuid)

theorem run_snoc (entries : List V1FileEntry) (f : V1FileEntry) :
    run draw (entries ++ [f]) = (run draw entries).step draw f := by
  rw [run, foldl_append]
  rfl

theorem generateId_none_taken (d : Nat → Uuid) : generateId (fun _ => false) d = (d 0).short := by
  have h : (List.range 100) = 0 :: (List.range 99).map (· + 1) := by decide
  rw [generateId, h]
  simp

/-- What the loop appends for an entry behind `entries`. -/
def migratedEntry (entries : List V1FileEntry) (e : V1Entry) : SessionEntry :=
  { id := (draw entries.length 0).short
    parentId := (run draw entries).prevId
    timestamp := e.timestamp
    body := e.body.migrated (migrateV1ToV2 draw entries) (draw entries.length 0).short }

theorem length_migrate (entries : List V1FileEntry) : (migrateV1ToV2 draw entries).length = entries.length := by
  induction entries using reverseRecOn with
  | nil => rfl
  | append_singleton entries f ih =>
    rw [migrateV1ToV2, run_snoc, length_append, length_singleton, ← ih]
    cases f <;> exact length_append

theorem migrate_snoc_session (entries : List V1FileEntry) (h : SessionHeader) :
    migrateV1ToV2 draw (entries ++ [session h]) =
      migrateV1ToV2 draw entries ++ [FileEntry.session { h with version := some 2 }] := by
  rw [migrateV1ToV2, run_snoc]
  rfl

theorem run_snoc_entry (entries : List V1FileEntry) (e : V1Entry) : run draw (entries ++ [entry e]) =
      { done := migrateV1ToV2 draw entries ++ [FileEntry.entry (migratedEntry draw entries e)]
        prevId := some (migratedEntry draw entries e).id } := by
  have hlen := length_migrate draw entries
  rw [migrateV1ToV2] at hlen
  simp only [run_snoc, step, generateId_none_taken, hlen]
  rfl

theorem migrate_snoc_entry (entries : List V1FileEntry) (e : V1Entry) : migrateV1ToV2 draw (entries ++ [entry e]) =
      migrateV1ToV2 draw entries ++ [FileEntry.entry (migratedEntry draw entries e)] := by
  rw [migrateV1ToV2, run_snoc_entry]

theorem migrate_append (entries more : List V1FileEntry) :
    ∃ tail, migrateV1ToV2 draw (entries ++ more) = migrateV1ToV2 draw entries ++ tail := by
  induction more using reverseRecOn with
  | nil => exact ⟨[], by rw [append_nil, append_nil]⟩
  | append_singleton more f ih =>
    obtain ⟨tail, htail⟩ := ih
    rw [← append_assoc]
    cases f with
    | session h => exact ⟨_, by rw [migrate_snoc_session, htail, append_assoc]⟩
    | entry e => exact ⟨_, by rw [migrate_snoc_entry, htail, append_assoc]⟩

theorem migrate_split (before after : List V1FileEntry) (e : V1Entry) :
    ∃ tail, migrateV1ToV2 draw (before ++ entry e :: after) =
      migrateV1ToV2 draw before ++ FileEntry.entry (migratedEntry draw before e) :: tail := by
  obtain ⟨tail, htail⟩ := migrate_append draw (before ++ [entry e]) after
  refine ⟨tail, ?_⟩
  rw [append_assoc, singleton_append, migrate_snoc_entry] at htail
  rw [htail, append_assoc, singleton_append]

theorem entriesOf_append (l r : List FileEntry) : entriesOf (l ++ r) = entriesOf l ++ entriesOf r :=
  filterMap_append

theorem entriesOf_cons_entry (e : SessionEntry) (l : List FileEntry) :
    entriesOf (.entry e :: l) = e :: entriesOf l := rfl

theorem entriesOf_snoc_entry (l : List FileEntry) (e : SessionEntry) :
    entriesOf (l ++ [FileEntry.entry e]) = entriesOf l ++ [e] := entriesOf_append l [.entry e]

theorem entriesOf_snoc_session (l : List FileEntry) (h : SessionHeader) :
    entriesOf (l ++ [FileEntry.session h]) = entriesOf l := (entriesOf_append l [.session h]).trans (append_nil _)

theorem prevId_run (entries : List V1FileEntry) : (run draw entries).prevId =
      (entriesOf (migrateV1ToV2 draw entries)).getLast?.map SessionEntry.id := by
  induction entries using reverseRecOn with
  | nil => rfl
  | append_singleton entries f ih =>
    cases f with
    | session h =>
      rw [migrate_snoc_session, entriesOf_snoc_session, run_snoc]
      exact ih
    | entry e =>
      rw [run_snoc_entry, migrate_snoc_entry, entriesOf_snoc_entry, getLast?_concat]
      rfl

/-! ## Ids and parents -/

def V1FileEntry.isEntry : V1FileEntry → Bool
  | .session _ => false
  | .entry _ => true

/-- The first id that is drawn for each entry. -/
def drawnIds (entries : List V1FileEntry) : List String :=
  (entries.zipIdx.filter fun f => f.1.isEntry).map fun f => (draw f.2 0).short

theorem ids_migrate (entries : List V1FileEntry) :
    (entriesOf (migrateV1ToV2 draw entries)).map SessionEntry.id = drawnIds draw entries := by
  induction entries using reverseRecOn with
  | nil => rfl
  | append_singleton entries f ih =>
    rw [drawnIds, zipIdx_append, filter_append, map_append, ← drawnIds, ← ih]
    cases f with
    | session h =>
      rw [migrate_snoc_session, entriesOf_snoc_session]
      simp [isEntry]
    | entry e =>
      rw [migrate_snoc_entry, entriesOf_snoc_entry, map_append]
      simp [isEntry, migratedEntry]

theorem id_ne_migrate {entries : List V1FileEntry} {x : SessionEntry}
    (hx : x ∈ entriesOf (migrateV1ToV2 draw entries)) : x.id ≠ "" := by
  have hmem := mem_map_of_mem (f := SessionEntry.id) hx
  rw [ids_migrate, drawnIds] at hmem
  obtain ⟨f, -, hf⟩ := mem_map.1 hmem
  rw [← hf]
  exact Uuid.short_ne_empty _

/-- Each entry is the child of the one in front of it. -/
def OneChain (es : List SessionEntry) : Prop :=
  (es.IsChain fun a b => b.parentId = some a.id) ∧ ∀ y ∈ es.head?, y.parentId = none

theorem oneChain_migrate (entries : List V1FileEntry) : OneChain (entriesOf (migrateV1ToV2 draw entries)) := by
  induction entries using reverseRecOn with
  | nil => exact ⟨.nil, by simp [migrateV1ToV2, run, entriesOf]⟩
  | append_singleton entries f ih =>
    cases f with
    | session h =>
      rw [migrate_snoc_session, entriesOf_snoc_session]
      exact ih
    | entry e =>
      have hparent : (migratedEntry draw entries e).parentId =
          (entriesOf (migrateV1ToV2 draw entries)).getLast?.map SessionEntry.id := prevId_run draw entries
      rw [migrate_snoc_entry, entriesOf_snoc_entry]
      refine ⟨isChain_append.2 ⟨ih.1, .singleton _, fun a ha b hb => ?_⟩, fun y hy => ?_⟩
      · obtain rfl := mem_some.1 hb
        rw [hparent, mem_def.1 ha]
        rfl
      · cases hes : entriesOf (migrateV1ToV2 draw entries) with
        | nil =>
          rw [hes] at hy hparent
          obtain rfl := mem_some.1 hy
          exact hparent
        | cons x xs =>
          rw [hes] at hy ih
          exact ih.2 y hy

theorem parent_eq_parentId {e : SessionEntry} (h : e.parentId ≠ some "") : e.parent = e.parentId := by
  unfold SessionEntry.parent
  cases hp : e.parentId with
  | none => rfl
  | some p => exact if_neg fun he => h (by rw [hp, he])

theorem pathFacts_migrate {entries : List V1FileEntry} (hn : (drawnIds draw entries).Nodup) :
    PathFacts (entriesOf (migrateV1ToV2 draw entries)) := by
  obtain ⟨hchain, hroot⟩ := oneChain_migrate draw entries
  refine ⟨by rw [ids_migrate]; exact hn, fun e he => id_ne_migrate draw he, ?_, fun y hy => ?_⟩
  · refine List.IsChain.imp_of_mem_imp (fun a b ha _ hab => ?_) hchain
    rw [parent_eq_parentId, hab]
    rw [hab]
    exact fun heq => id_ne_migrate draw ha (Option.some.inj heq)
  · rw [parent_eq_parentId (by rw [hroot y hy]; exact nofun), hroot y hy]

/-! ## The same messages -/

/-- A migrated entry has the message of the old one, and is a compaction when that is one. -/
def Corresponds : V1FileEntry → FileEntry → Prop
  | .session _, .session _ => True
  | .entry e, .entry x =>
    messageOf x = (entry e).message? ∧ (x.compaction?.isSome = (entry e).compaction?.isSome)
  | _, _ => False

theorem corresponds_migratedEntry (entries : List V1FileEntry) (e : V1Entry) :
    Corresponds (.entry e) (.entry (migratedEntry draw entries e)) := by
  cases hb : e.body with
  | compaction c =>
    simp [Corresponds, message?, compaction?, migratedEntry, hb, V1Body.migrated,
      messageOf, SessionEntry.compaction?]
  | other body plain =>
    have hnone : (migratedEntry draw entries e).compaction? = none := by
      rw [SessionEntry.compaction?]
      simp only [migratedEntry, hb, V1Body.migrated]
    refine ⟨?_, ?_⟩
    · simp only [message?, migratedEntry, hb, V1Body.migrated, messageOf]
    · rw [hnone]
      simp [compaction?, hb]

theorem corresponds_migrate (entries : List V1FileEntry) :
    List.Forall₂ Corresponds entries (migrateV1ToV2 draw entries) := by
  induction entries using reverseRecOn with
  | nil => exact .nil
  | append_singleton entries f ih =>
    cases f with
    | session h =>
      rw [migrate_snoc_session]
      exact rel_append ih (.cons trivial .nil)
    | entry e =>
      rw [migrate_snoc_entry]
      exact rel_append ih (.cons (corresponds_migratedEntry draw entries e) .nil)

end

theorem messages_of_corresponds {l : List V1FileEntry} {m : List FileEntry} (h : List.Forall₂ Corresponds l m) :
    (entriesOf m).filterMap messageOf = l.filterMap message? := by
  induction h with
  | nil => rfl
  | @cons f g l m hfg _ ih =>
    cases f with
    | session h =>
      cases g with
      | session h' => exact ih
      | entry x => exact hfg.elim
    | entry e =>
      cases g with
      | session h' => exact hfg.elim
      | entry x =>
        rw [entriesOf_cons_entry, filterMap_cons, filterMap_cons, hfg.1, ← ih]

theorem no_compaction_of_corresponds {l : List V1FileEntry} {m : List FileEntry}
    (h : List.Forall₂ Corresponds l m) (hl : ∀ f ∈ l, f.compaction? = none) :
    ∀ x ∈ entriesOf m, x.compaction? = none := by
  induction h with
  | nil => simp [entriesOf]
  | @cons f g l m hfg _ ih =>
    have ih := ih fun f hf => hl f (mem_cons_of_mem _ hf)
    cases g with
    | session h' => exact ih
    | entry x =>
      cases f with
      | session h => exact hfg.elim
      | entry e =>
        have hx : x.compaction? = none := by
          have hsame := hfg.2
          rw [hl _ mem_cons_self] at hsame
          exact isSome_eq_false_iff.1 hsame |> isNone_iff_eq_none.1
        intro y hy
        cases mem_cons.1 hy with
        | inl heq =>
          rw [heq]
          exact hx
        | inr hy => exact ih y hy

/-! ## The two contexts -/

theorem lastV1Compaction_split {before after : List V1FileEntry} {e : V1Entry} {c : V1Compaction}
    (hc : e.body = .compaction c) (hafter : ∀ f ∈ after, f.compaction? = none) :
    lastV1Compaction (before ++ entry e :: after) = some (before.length, e, c) := by
  have hnone : (after.zipIdx (before.length + 1)).reverse.findSome?
      (fun f => f.1.compaction?.map fun c => (f.2, c)) = none := by
    rw [findSome?_eq_none_iff]
    intro f hf
    rw [hafter f.1 (fst_mem_of_mem_zipIdx (mem_reverse.1 hf))]
    rfl
  rw [lastV1Compaction, zipIdx_append, zipIdx_cons, reverse_append, reverse_cons,
    findSome?_append, findSome?_append, Nat.zero_add, hnone]
  simp [compaction?, hc]

theorem lastV1Compaction_none {entries : List V1FileEntry} (h : ∀ f ∈ entries, f.compaction? = none) :
    lastV1Compaction entries = none := by
  rw [lastV1Compaction, findSome?_eq_none_iff]
  intro f hf
  rw [h f.1 (fst_mem_of_mem_zipIdx (mem_reverse.1 hf))]
  rfl

theorem exists_last_v1Compaction (entries : List V1FileEntry) : (∀ f ∈ entries, f.compaction? = none) ∨
      ∃ before e c after, entries = before ++ entry e :: after ∧ e.body = .compaction c ∧
        ∀ f ∈ after, f.compaction? = none := by
  induction entries using reverseRecOn with
  | nil => exact .inl (by simp)
  | append_singleton entries f ih =>
    cases hf : f.compaction? with
    | some c =>
      cases f with
      | session h => cases hf
      | entry e =>
        cases hb : e.body with
        | compaction c => exact .inr ⟨entries, e, c, [], rfl, hb, by simp⟩
        | other body plain => simp [compaction?, hb] at hf
    | none =>
      obtain h | ⟨before, e, c, after, rfl, hc, hafter⟩ := ih
      · refine .inl fun g hg => ?_
        cases mem_append.1 hg with
        | inl hg => exact h g hg
        | inr hg => rw [mem_singleton.1 hg, hf]
      · refine .inr ⟨before, e, c, after ++ [f], by simp, hc, fun g hg => ?_⟩
        cases mem_append.1 hg with
        | inl hg => exact hafter g hg
        | inr hg => rw [mem_singleton.1 hg, hf]

/-- What a compaction behind `before` keeps of it. -/
def keptV1 (before : List V1FileEntry) (c : V1Compaction) : List AgentMessage :=
  (before.drop c.firstKeptEntryIndex).filterMap message?

theorem linearMessages_split {before after : List V1FileEntry} {e : V1Entry} {c : V1Compaction}
    (hc : e.body = .compaction c) (hafter : ∀ f ∈ after, f.compaction? = none) :
    linearMessages (before ++ entry e :: after) =
      createCompactionSummaryMessage c.summary c.tokensBefore e.timestamp c.customInstructions
          (some (keptV1 before c).length) c.harnessDigest c.harnessStateFingerprint ::
        (keptV1 before c ++ after.filterMap message?) := by
  have hdrop : (before ++ entry e :: after).drop (before.length + 1) = after := by
    rw [← drop_drop, drop_left]
    rfl
  simp only [linearMessages, lastV1Compaction_split hc hafter, take_left, hdrop, keptV1]

theorem loadedMessages_eq {entries : List FileEntry} (h : PathFacts (entriesOf entries)) :
    loadedMessages entries = some (contextOfPath (entriesOf entries)).messages := by
  cases hl : (entriesOf entries).getLast? with
  | none =>
    rw [loadedMessages, hl, getLast?_eq_none_iff.1 hl]
    rfl
  | some leaf =>
    have hmem := mem_of_getLast? hl
    have hget : (indexById (entriesOf entries)).get? leaf.id = some leaf :=
      get?_indexById_of_mem h.nodup hmem
    simp only [loadedMessages, hl, buildSessionContext, if_neg (h.ids_ne leaf hmem), hget, some_or,
      h.pathTo hl, map_some]

section

variable {draw : Nat → Nat → Uuid}

/-- The id the first kept entry gets: the compaction's own, that of the entry at the index, or none. -/
theorem targetId_cases (done : List FileEntry) (id : String) (k : Nat) :
    (k = done.length ∧ targetId done id k = id) ∨
      (k ≠ done.length ∧ ∃ x, done[k]? = some (.entry x) ∧ targetId done id k = x.id) ∨
      (k ≠ done.length ∧ (∀ x, done[k]? ≠ some (.entry x)) ∧ targetId done id k = "") := by
  unfold targetId
  by_cases hk : k = done.length
  · exact .inl ⟨hk, if_pos hk⟩
  · rw [if_neg hk]
    cases hg : done[k]? with
    | none => exact .inr (.inr ⟨hk, by simp, rfl⟩)
    | some g =>
      cases g with
      | session h => exact .inr (.inr ⟨hk, by simp, rfl⟩)
      | entry x => exact .inr (.inl ⟨hk, x, rfl, rfl⟩)

variable {entries : List V1FileEntry} {k : Nat}

theorem corresponds_get {g : FileEntry}
    (h : (migrateV1ToV2 draw entries)[k]? = some g) : ∃ f, entries[k]? = some f ∧ Corresponds f g := by
  have hlen := length_migrate draw entries
  obtain ⟨hk, hg⟩ := List.getElem?_eq_some_iff.1 h
  have hk' : k < entries.length := by omega
  refine ⟨entries[k], getElem?_eq_getElem hk', ?_⟩
  rw [← hg]
  exact (forall₂_iff_get.1 (corresponds_migrate draw entries)).2 k hk' hk

/-- An index into a header keeps nothing. -/
def HeaderKeepsNothing (before : List V1FileEntry) (c : V1Compaction) : Prop :=
  ∀ h, before[c.firstKeptEntryIndex]? = some (.session h) → keptV1 before c = []

theorem keptBefore_eq_nil {d : Compaction} {pre : List SessionEntry}
    (h : ∀ x ∈ pre, x.id ≠ d.firstKeptEntryId) : keptBefore d pre = [] := by
  rw [keptBefore, dropWhile_eq_nil_iff.2 fun x hx => by simpa using h x hx]
  rfl

variable {x : SessionEntry}

theorem keptBefore_at {done : List FileEntry} {d : Compaction}
    (hn : ((entriesOf done).map SessionEntry.id).Nodup) (hk : done[k]? = some (.entry x))
    (hd : d.firstKeptEntryId = x.id) :
    keptBefore d (entriesOf done) = (entriesOf (done.drop k)).filterMap messageOf := by
  obtain ⟨hlt, hx⟩ := List.getElem?_eq_some_iff.1 hk
  have hsplit : entriesOf done = entriesOf (done.take k) ++ x :: entriesOf (done.drop (k + 1)) := by
    rw [← entriesOf_cons_entry, ← hx, ← drop_eq_getElem_cons hlt, ← entriesOf_append, take_append_drop]
  have hdrop : entriesOf (done.drop k) = x :: entriesOf (done.drop (k + 1)) := by
    rw [drop_eq_getElem_cons hlt, hx, entriesOf_cons_entry]
  rw [hsplit, map_append, nodup_append] at hn
  have hfront : ∀ y ∈ entriesOf (done.take k), (y.id != d.firstKeptEntryId) = true := by
    intro y hy
    have := hn.2.2 y.id (mem_map_of_mem hy) x.id (by simp)
    simpa [hd] using this
  rw [keptBefore, hsplit, dropWhile_append_of_pos hfront, dropWhile_cons_of_neg (by simp [hd]), hdrop]

variable {before : List V1FileEntry} {c : V1Compaction}

/-- A migrated compaction keeps what its index kept, unless that is a header in front of messages or an
entry behind it. -/
theorem keptBefore_migrated {id : String} (hn : (drawnIds draw before).Nodup)
    (hid : ∀ x ∈ entriesOf (migrateV1ToV2 draw before), x.id ≠ id) :
    keptBefore (c.migrated (targetId (migrateV1ToV2 draw before) id c.firstKeptEntryIndex))
        (entriesOf (migrateV1ToV2 draw before)) = keptV1 before c ↔ HeaderKeepsNothing before c := by
  have hlen := length_migrate draw before
  obtain ⟨hk, htarget⟩ | ⟨hk, x, hx, htarget⟩ | ⟨hk, hnone, htarget⟩ :=
    targetId_cases (migrateV1ToV2 draw before) id c.firstKeptEntryIndex
  · have hnil : keptV1 before c = [] := by
      rw [keptV1, hk, hlen, drop_length]
      rfl
    rw [htarget, hnil, keptBefore_eq_nil hid]
    exact iff_of_true rfl fun _ _ => hnil
  · obtain ⟨f, hf, hfx⟩ := corresponds_get hx
    have hentry : HeaderKeepsNothing before c := by
      intro h hh
      rw [hf] at hh
      cases hh
      exact hfx.elim
    rw [htarget, keptBefore_at (by rw [ids_migrate]; exact hn) hx rfl]
    refine iff_of_true ?_ hentry
    exact messages_of_corresponds (forall₂_drop _ (corresponds_migrate draw before))
  · rw [htarget, keptBefore_eq_nil fun x hx => id_ne_migrate draw hx, eq_comm]
    refine ⟨fun hnil _ _ => hnil, fun hheader => ?_⟩
    cases hg : before[c.firstKeptEntryIndex]? with
    | none =>
      rw [keptV1, drop_eq_nil_of_le (getElem?_eq_none_iff.1 hg)]
      rfl
    | some f =>
      cases f with
      | session h => exact hheader h hg
      | entry e =>
        obtain ⟨hlt, -⟩ := List.getElem?_eq_some_iff.1 hg
        obtain ⟨g, hg'⟩ : ∃ g, (migrateV1ToV2 draw before)[c.firstKeptEntryIndex]? = some g :=
          ⟨_, getElem?_eq_getElem (by omega)⟩
        obtain ⟨f, hf, hfg⟩ := corresponds_get hg'
        rw [hg] at hf
        cases hf
        cases g with
        | session h => exact hfg.elim
        | entry x => exact absurd hg' (hnone x)

/-- No last compaction of the file names a header in front of messages. -/
def HeadersKeepNothing (entries : List V1FileEntry) : Prop :=
  ∀ before e c after, entries = before ++ entry e :: after → e.body = .compaction c →
    (∀ f ∈ after, f.compaction? = none) → HeaderKeepsNothing before c

theorem drawnIds_append (before after : List V1FileEntry) :
    ∃ more, drawnIds draw (before ++ after) = drawnIds draw before ++ more :=
  ⟨_, by rw [drawnIds, zipIdx_append, filter_append, map_append, ← drawnIds]⟩

variable {after : List V1FileEntry} {e : V1Entry}

theorem context_of_split (hn : (drawnIds draw (before ++ entry e :: after)).Nodup) (hc : e.body = .compaction c)
    (hafter : ∀ f ∈ after, f.compaction? = none) :
    loadedMessages (migrateV1ToV2 draw (before ++ entry e :: after)) =
        some (linearMessages (before ++ entry e :: after)) ↔ HeaderKeepsNothing before c := by
  have hfacts := pathFacts_migrate draw hn
  have hcorr := corresponds_migrate draw (before ++ entry e :: after)
  obtain ⟨tail, hsplit⟩ := migrate_split draw before after e
  have hlen := length_migrate draw before
  rw [loadedMessages_eq hfacts, linearMessages_split hc hafter]
  rw [hsplit] at hcorr hfacts ⊢
  have htail : List.Forall₂ Corresponds after tail := by
    have hdrop := forall₂_drop (before.length + 1) hcorr
    rw [← drop_drop, ← drop_drop, drop_left, ← hlen, drop_left] at hdrop
    exact hdrop
  rw [entriesOf_append, entriesOf_cons_entry] at hfacts ⊢
  have hpre : ∀ x ∈ entriesOf (migrateV1ToV2 draw before), x.id ≠ (migratedEntry draw before e).id := by
    intro x hx
    have hnodup := hfacts.nodup
    rw [map_append, nodup_append] at hnodup
    exact hnodup.2.2 x.id (mem_map_of_mem hx) _ (by simp)
  have hcomp : (migratedEntry draw before e).compaction? =
      some (c.migrated (targetId (migrateV1ToV2 draw before) (migratedEntry draw before e).id
        c.firstKeptEntryIndex)) := by
    simp only [SessionEntry.compaction?, migratedEntry, hc, V1Body.migrated]
  have hbefore : (drawnIds draw before).Nodup := by
    obtain ⟨more, hmore⟩ := @drawnIds_append draw before (.entry e :: after)
    rw [hmore, nodup_append] at hn
    exact hn.1
  rw [messages_of_compaction hcomp hpre (no_compaction_of_corresponds htail hafter),
    messages_of_corresponds htail, Option.some.injEq, ← keptBefore_migrated hbefore hpre]
  constructor
  · intro heq
    exact append_cancel_right (List.cons.inj heq).2
  · intro hkept
    rw [hkept]
    rfl

theorem context_migrate_iff (hn : (drawnIds draw entries).Nodup) :
    loadedMessages (migrateV1ToV2 draw entries) = some (linearMessages entries) ↔ HeadersKeepNothing entries := by
  obtain hnone | ⟨before, e, c, after, rfl, hc, hafter⟩ := exists_last_v1Compaction entries
  · have hcorr := corresponds_migrate draw entries
    have hlinear : linearMessages entries = entries.filterMap message? := by
      rw [linearMessages, lastV1Compaction_none hnone]
    rw [loadedMessages_eq (pathFacts_migrate draw hn),
      messages_of_no_compaction (no_compaction_of_corresponds hcorr hnone), messages_of_corresponds hcorr,
      hlinear]
    refine iff_of_true rfl fun before e c after heq hc _ => ?_
    have hmem := hnone (.entry e) (by rw [heq]; simp)
    simp [compaction?, hc] at hmem
  · rw [context_of_split hn hc hafter]
    constructor
    · intro hheader before' e' c' after' heq hc' hafter'
      have hlast := @lastV1Compaction_split before after e c hc hafter
      rw [heq, lastV1Compaction_split hc' hafter', Option.some.injEq, Prod.mk.injEq, Prod.mk.injEq] at hlast
      obtain ⟨hlen, -, rfl⟩ := hlast
      rw [(append_inj heq hlen.symm).1] at hheader
      exact hheader
    · intro hall
      exact hall before e c after rfl hc hafter

/-! ## What the migration keeps -/

/-- Every compaction names the entry at its index. -/
def NamesIndices (draw : Nat → Nat → Uuid) (entries : List V1FileEntry) : Prop :=
  ∀ (p : Nat) (e : V1Entry) (c : V1Compaction), entries[p]? = some (.entry e) → e.body = .compaction c →
    ∀ x, (migrateV1ToV2 draw entries)[c.firstKeptEntryIndex]? = some (.entry x) →
      ∃ y d, (migrateV1ToV2 draw entries)[p]? = some (.entry y) ∧ y.compaction? = some d ∧
        d.firstKeptEntryId = x.id

/-- A migrated session is the file it was: distinct ids, one chain in file order, compactions that name
the entry at their index, and the same context. -/
structure KeepsSession (draw : Nat → Nat → Uuid) (entries : List V1FileEntry) : Prop where
  distinct : ((entriesOf (migrateV1ToV2 draw entries)).map SessionEntry.id).Nodup
  chain : OneChain (entriesOf (migrateV1ToV2 draw entries))
  indices : NamesIndices draw entries
  context : loadedMessages (migrateV1ToV2 draw entries) = some (linearMessages entries)

/-- No compaction names an entry behind itself. -/
def IndicesPointBack (entries : List V1FileEntry) : Prop :=
  ∀ (p : Nat) (e : V1Entry) (c : V1Compaction), entries[p]? = some (.entry e) → e.body = .compaction c →
    ∀ e', entries[c.firstKeptEntryIndex]? = some (.entry e') → c.firstKeptEntryIndex ≤ p

theorem targetId_eq_iff (hx : (migrateV1ToV2 draw (before ++ entry e :: after))[k]? = some (.entry x)) :
    targetId (migrateV1ToV2 draw before) (migratedEntry draw before e).id k = x.id ↔ k ≤ before.length := by
  have hlen := length_migrate draw before
  obtain ⟨tail, hsplit⟩ := migrate_split draw before after e
  have hne : x.id ≠ "" := by
    refine @id_ne_migrate draw (before ++ entry e :: after) x ?_
    exact mem_filterMap.2 ⟨_, mem_of_getElem? hx, rfl⟩
  rw [hsplit] at hx
  obtain ⟨hk, htarget⟩ | ⟨hk, y, hy, htarget⟩ | ⟨hk, hnone, htarget⟩ :=
    targetId_cases (migrateV1ToV2 draw before) (migratedEntry draw before e).id k
  · rw [hk, getElem?_append_right (Nat.le_refl _), Nat.sub_self] at hx
    cases hx
    exact iff_of_true htarget (by omega)
  · obtain ⟨hlt, -⟩ := List.getElem?_eq_some_iff.1 hy
    rw [List.getElem?_append_left hlt, hy] at hx
    cases hx
    exact iff_of_true htarget (by omega)
  · have hge : ¬k ≤ before.length := by
      intro hle
      rw [List.getElem?_append_left (by omega)] at hx
      exact hnone x hx
    exact iff_of_false (by rw [htarget]; exact Ne.symm hne) hge

theorem names_at_iff (hc : e.body = .compaction c)
    (hx : (migrateV1ToV2 draw (before ++ entry e :: after))[c.firstKeptEntryIndex]? = some (.entry x)) :
    (∃ y d, (migrateV1ToV2 draw (before ++ entry e :: after))[before.length]? = some (.entry y) ∧
        y.compaction? = some d ∧ d.firstKeptEntryId = x.id) ↔ c.firstKeptEntryIndex ≤ before.length := by
  rw [← targetId_eq_iff hx]
  obtain ⟨tail, hsplit⟩ := migrate_split draw before after e
  have hat : (migrateV1ToV2 draw (before ++ entry e :: after))[before.length]? =
      some (.entry (migratedEntry draw before e)) := by
    rw [hsplit, ← length_migrate draw before, getElem?_append_right (Nat.le_refl _), Nat.sub_self]
    rfl
  have hcomp : (migratedEntry draw before e).compaction? =
      some (c.migrated (targetId (migrateV1ToV2 draw before) (migratedEntry draw before e).id
        c.firstKeptEntryIndex)) := by
    simp only [SessionEntry.compaction?, migratedEntry, hc, V1Body.migrated]
  rw [hat]
  constructor
  · rintro ⟨y, d, hy, hd, hid⟩
    cases hy
    rw [hcomp] at hd
    cases hd
    exact hid
  · intro hid
    exact ⟨_, _, rfl, hcomp, hid⟩

theorem exists_split_at {p : Nat} {f : V1FileEntry}
    (h : entries[p]? = some f) : ∃ before after, entries = before ++ f :: after ∧ before.length = p := by
  obtain ⟨hlt, hf⟩ := List.getElem?_eq_some_iff.1 h
  refine ⟨entries.take p, entries.drop (p + 1), ?_, by rw [length_take]; omega⟩
  rw [← hf, ← drop_eq_getElem_cons hlt, take_append_drop]

theorem namesIndices_iff (entries : List V1FileEntry) : NamesIndices draw entries ↔ IndicesPointBack entries := by
  constructor
  · intro h p e c hp hc e' he'
    obtain ⟨hlt, -⟩ := List.getElem?_eq_some_iff.1 he'
    obtain ⟨g, hg⟩ : ∃ g, (migrateV1ToV2 draw entries)[c.firstKeptEntryIndex]? = some g :=
      ⟨_, getElem?_eq_getElem (by rw [length_migrate]; exact hlt)⟩
    obtain ⟨f, hf, hfg⟩ := corresponds_get hg
    rw [he'] at hf
    cases hf
    cases g with
    | session h => exact hfg.elim
    | entry x =>
      obtain ⟨before, after, rfl, rfl⟩ := exists_split_at hp
      exact (names_at_iff hc hg).1 (h _ e c hp hc x hg)
  · intro h p e c hp hc x hx
    obtain ⟨f, hf, hfx⟩ := corresponds_get hx
    cases f with
    | session h => exact hfx.elim
    | entry e' =>
      obtain ⟨before, after, rfl, rfl⟩ := exists_split_at hp
      exact (names_at_iff hc hx).2 (h _ e c hp hc e' hf)

/-- The migration keeps a session exactly when the ids it happens to draw differ, no compaction names an
entry behind itself, and the last one no header in front of messages. -/
theorem migrate_keeps_iff (draw : Nat → Nat → Uuid) (entries : List V1FileEntry) : KeepsSession draw entries ↔
      (drawnIds draw entries).Nodup ∧ IndicesPointBack entries ∧ HeadersKeepNothing entries := by
  constructor
  · intro h
    have hn : (drawnIds draw entries).Nodup := by
      rw [← ids_migrate]
      exact h.distinct
    exact ⟨hn, (namesIndices_iff entries).1 h.indices, (context_migrate_iff hn).1 h.context⟩
  · rintro ⟨hn, hback, hheaders⟩
    exact
      { distinct := by rw [ids_migrate]; exact hn
        chain := oneChain_migrate draw entries
        indices := (namesIndices_iff entries).2 hback
        context := (context_migrate_iff hn).2 hheaders }

end

/-! ## A repeated draw -/

def v1Message (text : String) : V1FileEntry :=
  .entry
    { timestamp := "2026-01-01T00:00:00.000Z"
      body := .other (.message (userMessage text)) fun _ h => by cases h }

/-- A file of version 1 with two messages. -/
def twoMessages : List V1FileEntry :=
  [.session
    { version := none, id := "0", timestamp := "2026-01-01T00:00:00.000Z", cwd := "/repo"
      parentSession := none, rlmDepth := none, git := none },
    v1Message "one", v1Message "two"]

/-- The first draw is the same for every entry; a second one would not be. -/
def repeatedDraw (_ i : Nat) : Uuid := Uuid.ofChar (if i = 0 then '0' else '1')

/-- Both entries get the same id: the second one is its own parent, and the walk from it never ends. -/
theorem migrate_repeats_id :
    (entriesOf (migrateV1ToV2 repeatedDraw twoMessages)).map SessionEntry.id = ["00000000", "00000000"] ∧
      loadedMessages (migrateV1ToV2 repeatedDraw twoMessages) = none ∧ ¬KeepsSession repeatedDraw twoMessages := by
  have hids : (entriesOf (migrateV1ToV2 repeatedDraw twoMessages)).map SessionEntry.id =
      ["00000000", "00000000"] := by
    rw [ids_migrate]
    decide
  refine ⟨hids, rfl, fun h => ?_⟩
  have hn := h.distinct
  rw [hids] at hn
  exact absurd hn (by decide)

end Session
end RePrime
