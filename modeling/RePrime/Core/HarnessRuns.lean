import RePrime.Core.Harness
import RePrime.Lib.Runs

/-!
# RePrime.Core.HarnessRuns

What the two writers of the harness store keep of each other's work, over any interleaving of their file steps.

* `EditedFrom`: a document differs from another in the edited entries and the appended events only
  (`KernelOp.perform_editedFrom`, `applyRefinementProposal_editedFrom`).
* `State.kept_of_run`: while neither side writes in the other's window between its last look at the file and
  its own write (or the time stamp the kernel records after it), the file holds what each side has saved last.
* `State.lost`: a refinement between the kernel's write and its time stamp is undone by the kernel's next write.
-/

namespace RePrime
namespace Core
namespace Harness

open Option List
open OrderedMap

variable {V : Type} {B : Builtins V} {scope : HarnessScope}

/-! ### Values that both languages read alike -/

/-- The entry comes back from `JSON.parse` as it is. -/
def HarnessEntry.Plain (B : Builtins V) (e : HarnessEntry V) : Prop := e.parsed B = some e

def Document.Plain (B : Builtins V) (doc : Document V) : Prop :=
  ∀ key e, doc.entries.get? key = some e → e.Plain B ∧ key.2 ≠ "__proto__"

/-- A value that the caller gives is read back as it is. -/
def PlainValue (B : Builtins V) (v : Option V) : Prop := ∀ w ∈ v, B.parsed w = some w

structure EntryArgs.Plain (B : Builtins V) (a : EntryArgs V) : Prop where
  reference : PlainValue B a.reference
  arguments : PlainValue B a.arguments
  metadata : PlainValue B a.metadata
  key : (a.key B).2 ≠ "__proto__"

/-- What the operation hands to `_upsert`. -/
def KernelOp.args (B : Builtins V) : KernelOp V → Option (EntryArgs V)
  | upsert a => some a
  | create a => some { a with id := some (a.entryId B) }
  | update id a => some { a with id := some id }
  | delete .. => none
  | recordRefinement .. => none

def KernelOp.Plain (B : Builtins V) (op : KernelOp V) : Prop := ∀ a ∈ op.args B, a.Plain B

structure RefinementEdit.Plain (B : Builtins V) (edit : RefinementEdit V) : Prop where
  reference : PlainValue B edit.reference
  arguments : PlainValue B edit.arguments
  metadata : PlainValue B edit.metadata
  id : (edit.computedId B).getD "" ≠ "__proto__"

def HostJob.Plain (B : Builtins V) (job : HostJob V) : Prop := ∀ edit ∈ job.edits, edit.Plain B

variable {e : HarnessEntry V}

theorem plain_iff : e.Plain B ↔ B.parsed e.reference = some e.reference ∧ B.parsed e.arguments = some e.arguments ∧
      B.parsed e.metadata = some e.metadata := by
  simp only [HarnessEntry.Plain, HarnessEntry.parsed]
  constructor
  · intro h
    obtain ⟨r, hr, h⟩ := bind_eq_some_iff.mp h
    obtain ⟨a, ha, h⟩ := bind_eq_some_iff.mp h
    obtain ⟨m, hm, h⟩ := bind_eq_some_iff.mp h
    have he := Option.some.inj h
    have hr' : r = e.reference := congrArg HarnessEntry.reference he
    have ha' : a = e.arguments := congrArg HarnessEntry.arguments he
    have hm' : m = e.metadata := congrArg HarnessEntry.metadata he
    exact ⟨hr' ▸ hr, ha' ▸ ha, hm' ▸ hm⟩
  · rintro ⟨hr, ha, hm⟩
    rw [hr, ha, hm]
    rfl

theorem mapM_eq_self {α : Type} {f : α → Option α} {l : List α} (h : ∀ a ∈ l, f a = some a) :
    l.mapM f = some l := by
  induction l with
  | nil => rfl
  | cons a l ih =>
    rw [mapM_cons, h a mem_cons_self, ih fun b hb => h b (mem_cons_of_mem _ hb)]
    rfl

theorem PlainValue.getD {v : Option V} {w : V} (hv : PlainValue B v) (hw : B.parsed w = some w) :
    B.parsed (v.getD w) = some (v.getD w) := by
  cases v with
  | none => exact hw
  | some x => exact hv x rfl

theorem Document.plain_empty : (Document.empty : Document V).Plain B := by
  intro key e h
  rw [Document.empty, get?_empty] at h
  cases h

variable {doc : Document V} {key : Key}

theorem Document.Plain.set (h : doc.Plain B) (he : e.Plain B) (hk : key.2 ≠ "__proto__") :
    Document.Plain B { doc with entries := doc.entries.set key e } := by
  intro key' e' h'
  rw [get?_set] at h'
  split at h'
  · cases h'
    subst_vars
    exact ⟨he, hk⟩
  · exact h key' e' h'

theorem Document.Plain.delete (h : doc.Plain B) (key : Key) :
    Document.Plain B { doc with entries := doc.entries.delete key } := by
  intro key' e' h'
  rw [get?_delete] at h'
  split at h'
  · cases h'
  · exact h key' e' h'

/-! ### What an operation leaves alone -/

/-- The edited document differs from `base` in the edited entries and the appended events only. -/
structure EditedFrom (base : Document V) (edited : Edited V) : Prop where
  entries : ∀ key ∉ edited.keys, edited.document.entries.get? key = base.entries.get? key
  refinements : edited.document.refinements = base.refinements ++ edited.events

theorem EditedFrom.refl (doc : Document V) : EditedFrom doc ⟨doc, [], []⟩ :=
  ⟨fun _ _ => rfl, (append_nil _).symm⟩

theorem EditedFrom.trans {base : Document V} {keys : List Key} {events : List RefinementEvent}
    {edited : Edited V} (h : EditedFrom base ⟨doc, keys, events⟩) (h' : EditedFrom doc edited) :
    EditedFrom base ⟨edited.document, keys ++ edited.keys, events ++ edited.events⟩ where
  entries := by
    intro key hkey
    obtain ⟨hk, hk'⟩ := not_or.mp (mt mem_append.mpr hkey)
    rw [h'.entries key hk', h.entries key hk]
  refinements := by
    rw [h'.refinements, h.refinements, append_assoc]

/-- Edits of a document whose lookups are those of `base` are edits of `base`. -/
theorem EditedFrom.congr {base base' : Document V} {edited : Edited V} (h : EditedFrom base edited)
    (he : ∀ key, base.entries.get? key = base'.entries.get? key) (hr : base.refinements = base'.refinements) :
    EditedFrom base' edited :=
  ⟨fun key hkey => (h.entries key hkey).trans (he key), h.refinements.trans (by rw [hr])⟩

variable {entries : OrderedMap Key (HarnessEntry V)}

theorem get?_set_of_ne : ∀ key' ∉ [key], (entries.set key e).get? key' = entries.get? key' := by
  intro key' h
  rw [get?_set, if_neg (by simpa using h)]

theorem get?_delete_of_ne : ∀ key' ∉ [key], (entries.delete key).get? key' = entries.get? key' := by
  intro key' h
  rw [get?_delete, if_neg (by simpa using h)]

theorem upsertEntry_editedFrom (now : Nat → String) (doc : Document V) (a : EntryArgs V) :
    EditedFrom doc (upsertEntry B scope now doc a) :=
  ⟨get?_set_of_ne, (append_nil _).symm⟩

variable {now : Nat → String} {op : KernelOp V}

theorem KernelOp.perform_cases {edited : Edited V} (h : op.perform B scope now doc = some edited) :
    (∃ a ∈ op.args B, edited = upsertEntry B scope now doc a) ∨
    (∃ key, edited = ⟨{ doc with entries := doc.entries.delete key }, [key], []⟩) ∨
    ∃ event, edited = ⟨{ doc with refinements := doc.refinements ++ [event] }, [], [event]⟩ := by
  cases op with
  | upsert a =>
    cases h
    exact .inl ⟨a, rfl, rfl⟩
  | create a =>
    simp only [KernelOp.perform] at h
    split at h
    · cases h
    · cases h
      exact .inl ⟨_, rfl, rfl⟩
  | update id a =>
    simp only [KernelOp.perform] at h
    split at h
    · cases h
      exact .inl ⟨_, rfl, rfl⟩
    · cases h
  | delete kind id =>
    simp only [KernelOp.perform] at h
    split at h
    · cases h
      exact .inr (.inl ⟨_, rfl⟩)
    · cases h
  | recordRefinement trigger changes evidence outcome id =>
    cases h
    exact .inr (.inr ⟨_, rfl⟩)

theorem KernelOp.perform_editedFrom
    {edited : Edited V} (h : op.perform B scope now doc = some edited) : EditedFrom doc edited := by
  rcases perform_cases h with ⟨a, -, rfl⟩ | ⟨key, rfl⟩ | ⟨event, rfl⟩
  · exact upsertEntry_editedFrom now doc a
  · exact ⟨get?_delete_of_ne, (append_nil _).symm⟩
  · exact ⟨fun _ _ => rfl, rfl⟩

theorem EntryArgs.Plain.entry {a : EntryArgs V} (ha : a.Plain B) (now : Nat → String)
    {existing : Option (HarnessEntry V)} (he : ∀ e ∈ existing, e.Plain B) :
    (a.entry B scope now existing).Plain B := by
  cases existing with
  | none =>
    refine plain_iff.mpr ⟨?_, ?_, ?_⟩
    · exact ha.reference.getD B.parsed_emptyRecord
    · exact ha.arguments.getD B.parsed_emptyRecord
    · exact ha.metadata.getD B.parsed_emptyRecord
  | some e =>
    obtain ⟨hr, harg, hm⟩ := plain_iff.mp (he e rfl)
    exact plain_iff.mpr ⟨ha.reference.getD hr, ha.arguments.getD harg, ha.metadata.getD hm⟩

theorem KernelOp.perform_plain {edited : Edited V}
    (h : op.perform B scope now doc = some edited) (hdoc : doc.Plain B) (hop : op.Plain B) :
    edited.document.Plain B := by
  rcases perform_cases h with ⟨a, ha, rfl⟩ | ⟨key, rfl⟩ | ⟨event, rfl⟩
  · have hp := hop a ha
    exact hdoc.set (hp.entry now fun e he => (hdoc _ e he).1) hp.key
  · exact hdoc.delete key
  · exact hdoc

/-! ### What a refinement leaves alone -/

theorem get?_load (h : doc.Plain B) (key : Key) :
    (loadHarnessState B (some doc)).entries.get? key = doc.entries.get? key ∧
      (loadHarnessState B (some doc)).refinements = doc.refinements := by
  have hplain : ∀ e ∈ doc.entries.entries, e.2.Plain B ∧ e.1.2 ≠ "__proto__" := by
    intro e he
    exact h e.1 e.2 (get?_of_mem_entries he)
  have hmap : (doc.entries.entries.mapM fun e => (e.2.parsed B).map (e.1, ·)) = some doc.entries.entries := by
    refine mapM_eq_self ?_
    intro e he
    rw [(hplain e he).1]
    rfl
  have hfilter : (doc.entries.entries.filter fun e => e.1.2 ≠ "__proto__") = doc.entries.entries := by
    rw [filter_eq_self]
    intro e he
    simpa using (hplain e he).2
  simp only [loadHarnessState, hmap, hfilter]
  exact ⟨get?_ofList_entries _ key, trivial⟩

theorem get?_of_cloneEntry {before : Option (Snapshot V)} (h : cloneEntry entries key = some before) :
    before.bind Snapshot.entry? = entries.get? key := by
  simp only [cloneEntry] at h
  split at h
  · rename_i e he
    cases h
    rw [he]
    rfl
  · rename_i he
    rw [he]
    split at h
    · cases h
    · split at h <;>
      · cases h
        rfl

theorem RefinementEdit.Plain.after {edit : RefinementEdit V} (h : edit.Plain B) (createdAt updatedAt id : String)
    {before : Option (HarnessEntry V)} (hb : ∀ e ∈ before, e.Plain B) :
    (edit.after B scope createdAt updatedAt id before).Plain B := by
  cases before with
  | none =>
    refine plain_iff.mpr ⟨?_, ?_, ?_⟩
    · exact h.reference.getD B.parsed_emptyRecord
    · exact h.arguments.getD B.parsed_emptyRecord
    · exact h.metadata.getD B.parsed_emptyRecord
  | some e =>
    obtain ⟨hr, ha, hm⟩ := plain_iff.mp (hb e rfl)
    exact plain_iff.mpr ⟨h.reference.getD hr, h.arguments.getD ha, h.metadata.getD hm⟩

section Refinement

variable [DecidableEq V] {baseline : Option (Document V)} {now : Nat → String}

variable {s s' : Applying V} {edit : RefinementEdit V}

variable (h : applyEdit B scope baseline now s edit = some s')

include h

/-- An edit is refused, or its key counts as modified and its entry is left, deleted or written. -/
theorem applyEdit_cases : (s'.entries = s.entries ∧ s'.modifiedKeys = s.modifiedKeys) ∨
    ∃ kind, s'.modifiedKeys = s.modifiedKeys ++ [(kind, (edit.computedId B).getD "")] ∧
      (s'.entries = s.entries ∨ s'.entries = s.entries.delete (kind, (edit.computedId B).getD "") ∨
        ∃ createdAt updatedAt, s'.entries = s.entries.set (kind, (edit.computedId B).getD "")
          (edit.after B scope createdAt updatedAt ((edit.computedId B).getD "")
            (s.entries.get? (kind, (edit.computedId B).getD "")))) := by
  simp only [applyEdit] at h
  split at h
  · cases h
  split at h
  · cases h
    exact .inl ⟨rfl, rfl⟩
  · rename_i kind action _ _ _
    obtain ⟨before, hb, h⟩ := bind_eq_some_iff.mp h
    obtain ⟨was, -, h⟩ := bind_eq_some_iff.mp h
    split at h
    · cases h
      exact .inl ⟨rfl, rfl⟩
    · split at h
      · cases h
        exact .inl ⟨rfl, rfl⟩
      · cases h
        exact .inr ⟨kind, rfl, .inr (.inl rfl)⟩
      · cases h
        exact .inl ⟨rfl, rfl⟩
      · cases h
        exact .inl ⟨rfl, rfl⟩
      · cases h
        refine .inr ⟨kind, rfl, ?_⟩
        rw [get?_of_cloneEntry hb, assignEntry]
        split
        · exact .inl rfl
        · exact .inr (.inr ⟨_, _, rfl⟩)
  · cases h
    exact .inl ⟨rfl, rfl⟩

theorem applyEdit_keeps {entries : OrderedMap Key (HarnessEntry V)}
    (hs : ∀ key ∉ s.modifiedKeys, s.entries.get? key = entries.get? key) :
    ∀ key ∉ s'.modifiedKeys, s'.entries.get? key = entries.get? key := by
  intro key hkey
  rcases applyEdit_cases h with ⟨he, hm⟩ | ⟨kind, hm, he⟩
  · rw [hm] at hkey
    rw [he, hs key hkey]
  · rw [hm, mem_append, not_or] at hkey
    rcases he with he | he | ⟨createdAt, updatedAt, he⟩
    · rw [he, hs key hkey.1]
    · rw [he, get?_delete_of_ne key hkey.2, hs key hkey.1]
    · rw [he, get?_set_of_ne key hkey.2, hs key hkey.1]

theorem applyEdit_plain (hedit : edit.Plain B)
    (hs : Document.Plain B ⟨s.entries, []⟩) : Document.Plain B ⟨s'.entries, []⟩ := by
  rcases applyEdit_cases h with ⟨he, -⟩ | ⟨kind, -, he | he | ⟨createdAt, updatedAt, he⟩⟩
  · rw [he]
    exact hs
  · rw [he]
    exact hs
  · rw [he]
    exact hs.delete _
  · rw [he]
    exact hs.set (hedit.after _ _ _ fun e h' => (hs _ e h').1) hedit.id

omit h

theorem applyEdits_keeps {entries : OrderedMap Key (HarnessEntry V)} {edits : List (RefinementEdit V)}
    (h : edits.foldlM (applyEdit B scope baseline now) s = some s')
    (hs : ∀ key ∉ s.modifiedKeys, s.entries.get? key = entries.get? key) :
    ∀ key ∉ s'.modifiedKeys, s'.entries.get? key = entries.get? key := by
  induction edits generalizing s with
  | nil =>
    cases h
    exact hs
  | cons edit edits ih =>
    obtain ⟨t, ht, h⟩ := bind_eq_some_iff.mp h
    exact ih h (applyEdit_keeps ht hs)

theorem applyEdits_plain {edits : List (RefinementEdit V)}
    (h : edits.foldlM (applyEdit B scope baseline now) s = some s') (hedits : ∀ edit ∈ edits, edit.Plain B)
    (hs : Document.Plain B ⟨s.entries, []⟩) : Document.Plain B ⟨s'.entries, []⟩ := by
  induction edits generalizing s with
  | nil =>
    cases h
    exact hs
  | cons edit edits ih =>
    obtain ⟨t, ht, h⟩ := bind_eq_some_iff.mp h
    obtain ⟨hedit, hedits⟩ := forall_mem_cons.mp hedits
    exact ih h hedits (applyEdit_plain ht hedit hs)

variable {doc : Document V} {job : HostJob V} {edited : Edited V} {edits : List (AppliedRefinementEdit V)}

theorem applyRefinementProposal_editedFrom
    (h : applyRefinementProposal B scope doc job = some (edited, edits)) : EditedFrom doc edited := by
  obtain ⟨s, hs, h⟩ := bind_eq_some_iff.mp h
  cases h
  exact ⟨applyEdits_keeps hs fun _ _ => rfl, rfl⟩

theorem applyRefinementProposal_plain (h : applyRefinementProposal B scope doc job = some (edited, edits))
    (hdoc : doc.Plain B) (hjob : job.Plain B) : edited.document.Plain B := by
  obtain ⟨s, hs, h⟩ := bind_eq_some_iff.mp h
  cases h
  exact applyEdits_plain hs hjob hdoc

end Refinement

/-! ### The windows -/

/-- The kernel has looked at the file for the last time before it writes, or it has written and not yet recorded
the time stamp. -/
def KernelPhase.inWindow : KernelPhase V → Bool
  | saving => true
  | stamping => true
  | _ => false

/-- The host has read the file and not yet replaced it. -/
def HostPhase.inWindow : HostPhase V → Bool
  | saving _ => true
  | _ => false

def KernelPhase.call : KernelPhase V → Option (KernelCall V)
  | loading call => call
  | present call => call
  | reading call _ => call
  | _ => none

/-- The time stamp that a load has read. -/
def KernelPhase.mtime : KernelPhase V → Option Nat
  | reading _ mtime => mtime
  | _ => none

def HostPhase.job : HostPhase V → Option (HostJob V)
  | reading job => some job
  | _ => none

def HostPhase.edited : HostPhase V → Option (Edited V)
  | saving edited => some edited
  | _ => none

theorem edited_eq_none {host : HostPhase V} (h : host.inWindow = false) : host.edited = none := by
  cases host with
  | idle => rfl
  | reading job => rfl
  | saving edited => cases h

def CallPlain (B : Builtins V) (call : Option (KernelCall V)) : Prop := ∀ c ∈ call, c.op.Plain B

/-- Neither side writes in the other's window, and what they write reads alike in both languages. -/
def Guard (B : Builtins V) (s : State V) : Action V → Prop
  | .kernelCheck call => CallPlain B call
  | .hostExists job => job.Plain B
  | .kernelReplace => s.host.inWindow = false
  | .hostReplace => s.kernel.inWindow = false
  | _ => True

namespace State

variable {s s' : State V}

/-- The file holds every entry as the side that edited it last has saved it, none that this side has deleted,
and every event that a side has saved. -/
structure Kept (s : State V) : Prop where
  entries : ∀ key, s.content.entries.get? key = s.savedEntry key
  refinements : s.content.refinements = s.savedEvents

/-- The kernel's copy with the edits that are in it and not in the file. -/
def pending (s : State V) : Edited V := ⟨s.copy, s.unsaved, s.unsavedEvents⟩

/-- The kernel will use its copy without a load. -/
def Trusts (s : State V) : Prop := s.file = none ∨ s.loadedMtime = s.diskMtime ∨ s.kernel.inWindow = true

theorem forall_mem_none {α : Type} {P : α → Prop} : ∀ a ∈ (none : Option α), P a := by
  intro a h
  cases h

structure Inv (B : Builtins V) (s : State V) : Prop where
  kept : s.Kept
  plain : s.content.Plain B
  copyPlain : s.copy.Plain B
  disk : ∀ m ∈ s.diskMtime, m < s.clock
  loaded : ∀ m ∈ s.loadedMtime, m < s.clock
  reading : ∀ m ∈ s.kernel.mtime, m < s.clock
  call : CallPlain B s.kernel.call
  copy : s.Trusts → EditedFrom s.content s.pending
  job : ∀ job ∈ s.host.job, job.Plain B
  host : ∀ edited ∈ s.host.edited, EditedFrom s.content edited ∧ edited.document.Plain B

theorem init_inv {file : Option (Document V)} (h : ∀ doc ∈ file, doc.Plain B) : Inv B (init file) := by
  have hcontent : (init file).content = file.getD .empty := by cases file <;> rfl
  have hplain : (file.getD .empty).Plain B := by
    cases file with
    | none => exact Document.plain_empty
    | some doc => exact h doc rfl
  refine ⟨⟨?_, ?_⟩, ?_, Document.plain_empty, ?_, ?_, ?_, ?_, ?_, ?_, ?_⟩
  · intro key
    rw [hcontent]
    rfl
  · rw [hcontent]
    rfl
  · rw [hcontent]
    exact hplain
  · intro m hm
    cases file with
    | none => cases hm
    | some doc =>
      cases hm
      exact Nat.zero_lt_one
  · intro m hm
    cases hm
  · intro m hm
    cases hm
  · intro c hc
    cases hc
  · intro ht
    have hnone : file = none := by
      rcases ht with ht | ht | ht
      · cases file with
        | none => rfl
        | some doc => cases ht
      · cases file with
        | none => rfl
        | some doc => cases ht
      · cases ht
    subst hnone
    exact EditedFrom.refl _
  · intro job hj
    cases hj
  · intro edited he
    cases he

variable {kernel : KernelPhase V}

theorem Inv.callAt (h : Inv B s) (hk : s.kernel = kernel) : CallPlain B kernel.call :=
  hk ▸ h.call

theorem Inv.readingAt (h : Inv B s) (hk : s.kernel = kernel) : ∀ m ∈ kernel.mtime, m < s.clock := hk ▸ h.reading

theorem Inv.move (h : Inv B s) (hw : kernel.inWindow = false) (hreading : ∀ m ∈ kernel.mtime, m < s.clock)
    (hcall : CallPlain B kernel.call) : Inv B { s with kernel := kernel } := by
  refine ⟨⟨h.kept.entries, h.kept.refinements⟩, h.plain, h.copyPlain, h.disk, h.loaded, hreading, hcall, ?_,
    h.job, h.host⟩
  intro ht
  rcases ht with ht | ht | ht
  · exact h.copy (.inl ht)
  · exact h.copy (.inr (.inl ht))
  · rw [hw] at ht
    cases ht

theorem Inv.moveHost (h : Inv B s) {host : HostPhase V} (hjob : ∀ job ∈ host.job, job.Plain B)
    (hsaving : ∀ edited ∈ host.edited, EditedFrom s.content edited ∧ edited.document.Plain B) :
    Inv B { s with host := host } :=
  ⟨⟨h.kept.entries, h.kept.refinements⟩, h.plain, h.copyPlain, h.disk, h.loaded, h.reading, h.call, h.copy, hjob,
    hsaving⟩

theorem Inv.perform (h : Inv B s) {call : Option (KernelCall V)} (hcall : CallPlain B call)
    (hcopy : EditedFrom s.content s.pending) : Inv B (s.perform B scope call) := by
  simp only [State.perform]
  split
  · exact h.move rfl forall_mem_none forall_mem_none
  · rename_i edited he
    obtain ⟨c, hc, he⟩ := bind_eq_some_iff.mp he
    have hedited := KernelOp.perform_editedFrom he
    have hplain := KernelOp.perform_plain he h.copyPlain (hcall c hc)
    exact ⟨⟨h.kept.entries, h.kept.refinements⟩, h.plain, hplain, h.disk, h.loaded, forall_mem_none, forall_mem_none,
      fun _ => hcopy.trans hedited, h.job, h.host⟩

theorem Inv.applyJob [DecidableEq V] (h : Inv B s) {job : HostJob V} (hjob : job.Plain B) {doc : Document V}
    (hdoc : doc.Plain B) (he : ∀ key, doc.entries.get? key = s.content.entries.get? key)
    (hr : doc.refinements = s.content.refinements) : Inv B (s.applyJob B scope job doc) := by
  simp only [State.applyJob]
  split
  · exact h.moveHost forall_mem_none forall_mem_none
  · rename_i edited edits happly
    refine h.moveHost forall_mem_none ?_
    intro edited' h'
    cases h'
    exact ⟨(applyRefinementProposal_editedFrom happly).congr he hr, applyRefinementProposal_plain happly hdoc hjob⟩

theorem kept_write (h : s.Kept) {edited : Edited V} (he : EditedFrom s.content edited) : (s.write edited).Kept := by
  constructor
  · intro key
    simp only [content, write, map_some, getD_some]
    split
    · rfl
    · rename_i hkey
      rw [he.entries key hkey]
      exact h.entries key
  · simp only [content, write, map_some, getD_some]
    rw [he.refinements, h.refinements]

theorem write_disk (edited : Edited V) : ∀ m ∈ (s.write edited).diskMtime, m < (s.write edited).clock := by
  intro m hm
  cases hm
  exact Nat.lt_succ_self _

theorem Inv.kernelReplace (h : Inv B s) (hk : s.kernel = .saving) (hhost : s.host.inWindow = false) :
    Inv B { s.write s.pending with kernel := .stamping, unsaved := [], unsavedEvents := [] } := by
  have hpending : EditedFrom s.content s.pending := h.copy (.inr (.inr (by rw [hk]; rfl)))
  have hkept := kept_write h.kept hpending
  refine ⟨⟨hkept.entries, hkept.refinements⟩, h.copyPlain, h.copyPlain, write_disk _, ?_,
    forall_mem_none, forall_mem_none, ?_, h.job, ?_⟩
  · intro m hm
    exact Nat.lt_succ_of_lt (h.loaded m hm)
  · intro _
    exact EditedFrom.refl s.copy
  · intro edited he
    have he : edited ∈ s.host.edited := he
    rw [edited_eq_none hhost] at he
    cases he

/-- The kernel's recorded time stamp is an older one from then on: it will load before it uses its copy. -/
theorem Inv.hostReplace (h : Inv B s) {edited : Edited V} (hh : s.host = .saving edited)
    (hkernel : s.kernel.inWindow = false) : Inv B { s.write edited with host := .idle } := by
  obtain ⟨hedited, hplain⟩ := h.host edited (by rw [hh]; rfl)
  have hkept := kept_write h.kept hedited
  refine ⟨⟨hkept.entries, hkept.refinements⟩, hplain, h.copyPlain, write_disk _, ?_, ?_, h.call, ?_,
    forall_mem_none, forall_mem_none⟩
  · intro m hm
    exact Nat.lt_succ_of_lt (h.loaded m hm)
  · intro m hm
    exact Nat.lt_succ_of_lt (h.reading m hm)
  · intro ht
    rcases ht with ht | ht | ht
    · cases ht
    · have hlt := h.loaded s.clock ht
      exact absurd hlt (Nat.lt_irrefl _)
    · have ht : s.kernel.inWindow = true := ht
      rw [hkernel] at ht
      cases ht

theorem content_of_none (hf : s.file = none) : s.content = .empty := by
  rw [content, hf]
  rfl

theorem Inv.load (h : Inv B s) : (loadHarnessState B (s.file.map Prod.fst)).Plain B ∧
    (∀ key, (loadHarnessState B (s.file.map Prod.fst)).entries.get? key = s.content.entries.get? key) ∧
      (loadHarnessState B (s.file.map Prod.fst)).refinements = s.content.refinements := by
  have hplain := h.plain
  cases hf : s.file with
  | none =>
    rw [content_of_none hf]
    exact ⟨Document.plain_empty, fun _ => rfl, rfl⟩
  | some p =>
    have hc : s.content = p.1 := by
      rw [content, hf]
      rfl
    rw [hc] at hplain
    rw [map_some, hc]
    refine ⟨?_, fun key => (get?_load hplain key).1, (get?_load hplain (.memory, "")).2⟩
    intro key e he
    rw [(get?_load hplain key).1] at he
    exact hplain key e he

theorem Inv.step [DecidableEq V] {a : Action V} (h : Inv B s) (hg : Guard B s a)
    (hstep : Harness.step B scope s a = some s') : Inv B s' := by
  cases a with
  | kernelCheck call =>
    simp only [Harness.step] at hstep
    split at hstep
    · cases hstep
      split
      · exact h.move rfl forall_mem_none hg
      · rename_i hm
        exact h.perform hg (h.copy (.inr (.inl (not_not.mp hm).symm)))
    · cases hstep
  | kernelExists =>
    simp only [Harness.step] at hstep
    split at hstep
    · rename_i call hk hf
      cases hstep
      have hcopy := h.copy (.inl hf)
      refine Inv.perform ?_ (h.callAt hk) hcopy
      exact ⟨⟨h.kept.entries, h.kept.refinements⟩, h.plain, h.copyPlain, h.disk, forall_mem_none, h.reading, h.call,
        fun _ => hcopy, h.job, h.host⟩
    · rename_i call _ hk hf
      cases hstep
      exact h.move rfl forall_mem_none (h.callAt hk :)
    · cases hstep
  | kernelMtime =>
    simp only [Harness.step] at hstep
    split at hstep
    · rename_i call hk
      cases hstep
      exact h.move rfl h.disk (h.callAt hk :)
    · cases hstep
  | kernelRead =>
    simp only [Harness.step] at hstep
    split at hstep
    · rename_i call mtime hk
      cases hstep
      refine Inv.perform ?_ (h.callAt hk) (EditedFrom.refl _)
      exact ⟨⟨h.kept.entries, h.kept.refinements⟩, h.plain, h.plain, h.disk, h.readingAt hk, h.reading, h.call,
        fun _ => EditedFrom.refl _, h.job, h.host⟩
    · cases hstep
  | kernelReplace =>
    simp only [Harness.step] at hstep
    split at hstep
    · rename_i hk
      cases hstep
      exact h.kernelReplace hk hg
    · cases hstep
  | kernelFail =>
    simp only [Harness.step] at hstep
    split at hstep
    · cases hstep
      exact h.move rfl forall_mem_none forall_mem_none
    · cases hstep
  | kernelStamp =>
    simp only [Harness.step] at hstep
    split at hstep
    · rename_i hk
      cases hstep
      have hcopy := h.copy (.inr (.inr (by rw [hk]; rfl)))
      exact ⟨⟨h.kept.entries, h.kept.refinements⟩, h.plain, h.copyPlain, h.disk, h.disk,
        forall_mem_none, forall_mem_none,
        fun _ => hcopy, h.job, h.host⟩
    · cases hstep
  | hostExists job =>
    simp only [Harness.step] at hstep
    split at hstep
    · rename_i hh hf
      cases hstep
      have hc := content_of_none hf
      exact h.applyJob hg Document.plain_empty (fun _ => by rw [hc]) (by rw [hc])
    · cases hstep
      refine h.moveHost ?_ forall_mem_none
      intro job' hj
      cases hj
      exact hg
    · cases hstep
  | hostRead =>
    simp only [Harness.step] at hstep
    split at hstep
    · rename_i job hh
      cases hstep
      obtain ⟨hplain, he, hr⟩ := h.load
      exact h.applyJob (h.job job (by rw [hh]; rfl)) hplain he hr
    · cases hstep
  | hostReplace =>
    simp only [Harness.step] at hstep
    split at hstep
    · rename_i edited hh
      cases hstep
      exact h.hostReplace hh hg
    · cases hstep
  | hostFail =>
    simp only [Harness.step] at hstep
    split at hstep
    · cases hstep
      exact h.moveHost forall_mem_none forall_mem_none
    · cases hstep

/-- While neither side writes in the other's window, every entry and event that a side has saved is in the file
as that side saved it, until an edit of the entry is saved, and a deleted entry stays deleted. -/
theorem kept_of_run [DecidableEq V] (B : Builtins V) (scope : HarnessScope) {file : Option (Document V)}
    (hfile : ∀ doc ∈ file, doc.Plain B)
    (h : Transition.GuardedRuns (Harness.step B scope) (Guard B) (init file) s) : s.Kept :=
  (h.keeps (P := Inv B) (init_inv hfile) fun _ _ _ hinv hg hstep => hinv.step hg hstep).kept

end State

/-! ### Runs on fixed calls -/

section Runs

instance [DecidableEq V] (v : Option V) : Decidable (PlainValue B v) :=
  inferInstanceAs (Decidable (∀ w ∈ v, B.parsed w = some w))

theorem EntryArgs.plain_iff {a : EntryArgs V} : a.Plain B ↔ PlainValue B a.reference ∧
    PlainValue B a.arguments ∧ PlainValue B a.metadata ∧ (a.key B).2 ≠ "__proto__" :=
  ⟨fun h => ⟨h.reference, h.arguments, h.metadata, h.key⟩, fun h => ⟨h.1, h.2.1, h.2.2.1, h.2.2.2⟩⟩

instance [DecidableEq V] (a : EntryArgs V) : Decidable (a.Plain B) := decidable_of_iff _ EntryArgs.plain_iff.symm

theorem RefinementEdit.plain_iff {edit : RefinementEdit V} : edit.Plain B ↔ PlainValue B edit.reference ∧
    PlainValue B edit.arguments ∧ PlainValue B edit.metadata ∧ (edit.computedId B).getD "" ≠ "__proto__" :=
  ⟨fun h => ⟨h.reference, h.arguments, h.metadata, h.id⟩, fun h => ⟨h.1, h.2.1, h.2.2.1, h.2.2.2⟩⟩

instance [DecidableEq V] (edit : RefinementEdit V) : Decidable (edit.Plain B) :=
  decidable_of_iff _ RefinementEdit.plain_iff.symm

instance [DecidableEq V] (op : KernelOp V) : Decidable (op.Plain B) :=
  inferInstanceAs (Decidable (∀ a ∈ op.args B, a.Plain B))

instance [DecidableEq V] (call : Option (KernelCall V)) : Decidable (CallPlain B call) :=
  inferInstanceAs (Decidable (∀ c ∈ call, c.op.Plain B))

instance [DecidableEq V] (job : HostJob V) : Decidable (job.Plain B) :=
  inferInstanceAs (Decidable (∀ edit ∈ job.edits, edit.Plain B))

instance [DecidableEq V] (s : State V) (a : Action V) : Decidable (Guard B s a) :=
  match a with
  | .kernelCheck call => inferInstanceAs (Decidable (CallPlain B call))
  | .hostExists job => inferInstanceAs (Decidable (job.Plain B))
  | .kernelReplace => inferInstanceAs (Decidable (s.host.inWindow = false))
  | .hostReplace => inferInstanceAs (Decidable (s.kernel.inWindow = false))
  | .kernelExists | .kernelMtime | .kernelRead | .kernelFail | .kernelStamp | .hostRead | .hostFail =>
    .isTrue trivial

/-- Objects of strings, and characters of ASCII text. -/
def asciiBuiltins : Builtins (List (String × String)) where
  emptyRecord := []
  text v key := v.lookup key
  parsed := some
  parsed_emptyRecord := rfl
  strip := Text.trim
  isalnum := Char.isAlphanum
  lower c := String.singleton c.toLower
  toLowerCase := String.map Char.toLower

/-- `create("memory", title, content, id=id)`. -/
def createMemory (id title content : String) : KernelCall (List (String × String)) where
  op := .create
    { kind := .memory, title := title, content := content, id := some id, path := some "general"
      reference := none, arguments := none, metadata := none, source := "agent" }
  now _ := "2026-01-01T00:00:00+00:00"

/-- A refinement that makes one memory. -/
def refineMemory (id title content : String) : HostJob (List (String × String)) where
  id := "refine_20260101000000000"
  summary := "Keep a lesson"
  rationale := ""
  expectedOutcome := ""
  edits :=
    [{ action := .ok .create, kind := .ok .memory, id := some id, title := some title, content := some content
       path := none, reference := none, arguments := none, metadata := none }]
  baselineState := none
  now _ := "2026-01-01T00:00:01.000Z"

/-- The kernel saves a memory, a refinement adds another, and the kernel loads that before it saves a third. -/
def turns : List (Action (List (String × String))) :=
  [.kernelExists,
    .kernelCheck (some (createMemory "deploy" "Deploy" "Use the script.")), .kernelReplace, .kernelStamp,
    .hostExists (refineMemory "review" "Review" "Ask first."), .hostRead, .hostReplace,
    .kernelCheck (some (createMemory "tests" "Tests" "Run them all.")), .kernelExists, .kernelMtime, .kernelRead,
    .kernelReplace, .kernelStamp]

/-- The same calls, with the refinement between the kernel's write and the time stamp that it records. -/
def overlapping : List (Action (List (String × String))) :=
  [.kernelExists, .kernelCheck (some (createMemory "deploy" "Deploy" "Use the script.")), .kernelReplace,
    .hostExists (refineMemory "review" "Review" "Ask first."), .hostRead, .hostReplace,
    .kernelStamp,
    .kernelCheck (some (createMemory "tests" "Tests" "Run them all.")), .kernelReplace]

namespace State

/-- All three memories are in the file. -/
def holdsAll (s : State V) : Bool :=
  s.content.entries.has (.memory, "deploy") && s.content.entries.has (.memory, "review") &&
    s.content.entries.has (.memory, "tests")

theorem kept_of_turns : ∃ s : State (List (String × String)), s.Kept ∧ s.holdsAll = true := by
  have hrun : ((Transition.guardedSteps (Harness.step asciiBuiltins .localStore) (Guard asciiBuiltins) turns
      (init none)).any holdsAll) = true := by
    decide
  obtain ⟨s, hrun, hall⟩ := Transition.exists_guardedRun hrun
  exact ⟨s, kept_of_run asciiBuiltins .localStore forall_mem_none hrun, hall⟩

/-- The refinement is gone with the kernel's next write. -/
theorem lost : ∃ s : State (List (String × String)),
    Transition.Runs (Harness.step asciiBuiltins .localStore) (init none) s ∧ ¬ s.Kept := by
  have hrun : ((Transition.steps (Harness.step asciiBuiltins .localStore) overlapping (init none)).any fun s =>
      (s.content.entries.get? (.memory, "review")).isNone && (s.savedEntry (.memory, "review")).isSome) = true := by
    decide
  obtain ⟨s, hrun, hlost⟩ := Transition.exists_run hrun
  refine ⟨s, hrun, ?_⟩
  intro hkept
  rw [hkept.entries, Bool.and_eq_true, isNone_iff_eq_none] at hlost
  rw [hlost.1] at hlost
  cases hlost.2

end State

end Runs

end Harness
end Core
end RePrime
