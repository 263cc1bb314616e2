import RePrime.Lib.OrderedMap
import RePrime.Lib.ParentChain
import RePrime.Session.Entry

/-!
# RePrime.Session.Context

`buildSessionContext`: the path from a leaf to its root, and the model context that path gives.

* `pathTo`: the parent walk over the id index; `none` is a loop that never ends.
* `pathTo_indexById`: over a list whose parents point backwards the walk is `climb`.
* `messages_of_compaction`, `messages_of_no_compaction`: the messages of a path, split at
  its last compaction.
-/

namespace RePrime
namespace Session

open ParentChain List

structure ModelRef where
  provider : String
  modelId : String
  deriving DecidableEq

structure SessionContext where
  messages : List AgentMessage
  thinkingLevel : String
  serviceTier : ServiceTier
  model : Option ModelRef

def SessionContext.empty : SessionContext :=
  { messages := [], thinkingLevel := "off", serviceTier := .default, model := none }

/-! ## The path -/

abbrev Index := OrderedMap String SessionEntry

/-- The index `_buildIndex` and `buildSessionContext` make: a later entry replaces an earlier one
with its id. -/
def indexById (entries : List SessionEntry) : Index :=
  entries.foldl (fun m e => m.set e.id e) .empty

/-- `current.parentId ? byId.get(current.parentId) : undefined`. -/
def parentEntry (byId : Index) (e : SessionEntry) : Option SessionEntry :=
  e.parent.bind byId.get?

/-- The walk from a leaf, reversed: root first. -/
def pathTo (byId : Index) (leaf : SessionEntry) : Option (List SessionEntry) :=
  (walk (parentEntry byId) (byId.size + 1) leaf).map List.reverse

/-- What a walk from `leaf` can meet. -/
def reachable (byId : Index) (leaf : SessionEntry) : List SessionEntry :=
  leaf :: byId.entries.map Prod.snd

theorem length_reachable (byId : Index) (leaf : SessionEntry) : (reachable byId leaf).length = byId.size + 1 := by
  simp [reachable, OrderedMap.size]

variable {leaf : SessionEntry}

theorem reachable_closed {byId : Index} :
    ∀ a ∈ reachable byId leaf, ∀ b, parentEntry byId a = some b → b ∈ reachable byId leaf := by
  intro a _ b hb
  obtain ⟨k, _, hk⟩ := Option.bind_eq_some_iff.1 hb
  exact mem_cons_of_mem _ (OrderedMap.mem_values_of_lookup hk)

theorem pathTo_of_walk {byId : Index} {n : Nat} {p : List SessionEntry}
    (h : walk (parentEntry byId) n leaf = some p) : pathTo byId leaf = some p.reverse := by
  have hw := walk_of_closed (s := reachable byId leaf) reachable_closed (by simp [reachable]) h
  rw [length_reachable] at hw
  rw [pathTo, hw]
  rfl

theorem get?_foldl_set (entries : List SessionEntry) (m : Index) (k : String) :
    (entries.foldl (fun m e => m.set e.id e) m).get? k =
      (find SessionEntry.id k entries.reverse).or (m.get? k) := by
  induction entries generalizing m with
  | nil => simp [find]
  | cons e entries ih =>
    rw [foldl_cons, ih, OrderedMap.get?_set, reverse_cons]
    cases hf : find SessionEntry.id k entries.reverse with
    | some x => simp only [find] at hf ⊢; simp [find?_append, hf]
    | none =>
      simp only [find] at hf ⊢
      by_cases hk : k = e.id
      · subst hk; simp [find?_append, hf]
      · simp [find?_append, hf, hk, Ne.symm hk]

theorem get?_indexById (entries : List SessionEntry) (k : String) :
    (indexById entries).get? k = find SessionEntry.id k entries.reverse := by
  rw [indexById, get?_foldl_set]
  simp

/-- Parents point backwards in a list of entries, oldest first. -/
def Ordered (entries : List SessionEntry) : Prop :=
  Backward SessionEntry.id SessionEntry.parent entries.reverse

/-- The chain that ends in the entry with id `k`, root first. -/
def branchOf (entries : List SessionEntry) (k : String) : List SessionEntry :=
  (climb SessionEntry.id SessionEntry.parent k entries.reverse).reverse

theorem pathTo_indexById {entries : List SessionEntry} (h : Ordered entries) {k : String}
    (hleaf : (indexById entries).get? k = some leaf) :
    pathTo (indexById entries) leaf = some (branchOf entries k) := by
  rw [get?_indexById] at hleaf
  have hnext : parentEntry (indexById entries) =
      parentIn SessionEntry.id SessionEntry.parent entries.reverse := by
    funext e
    simp only [parentEntry, parentIn]
    congr 1
    funext p
    exact get?_indexById entries p
  refine pathTo_of_walk (n := entries.reverse.length) ?_
  rw [hnext]
  exact walk_eq_climb h hleaf

/-! ## The context of a path -/

/-- The message `appendMessage` pushes for an entry, if it pushes one. -/
def messageOf (entry : SessionEntry) : Option AgentMessage :=
  match entry.body with
  | .message m => some m
  | .customMessage c =>
    some (createCustomMessage c.customType c.content c.display c.details entry.timestamp)
  | .branchSummary b =>
    if b.summary ≠ "" then some (createBranchSummaryMessage b.summary b.fromId entry.timestamp)
    else none
  | _ => none

variable {c : Compaction}

theorem messageOf_of_compaction {e : SessionEntry} (h : e.compaction? = some c) : messageOf e = none := by
  unfold SessionEntry.compaction? at h
  unfold messageOf
  cases hb : e.body with
  | compaction c => rfl
  | _ => simp [hb] at h

/-- The variables of the loop over the path. -/
structure PathScan where
  thinkingLevel : String
  serviceTier : ServiceTier
  model : Option ModelRef
  compaction : Option (SessionEntry × Compaction)

open PathScan

def PathScan.init : PathScan :=
  { thinkingLevel := "off", serviceTier := .default, model := none, compaction := none }

def PathScan.step (s : PathScan) (entry : SessionEntry) : PathScan :=
  match entry.body with
  | .thinkingLevelChange level => { s with thinkingLevel := level }
  | .serviceTierChange tier => { s with serviceTier := tier }
  | .modelChange provider modelId => { s with model := some { provider, modelId } }
  | .message (.assistant m) => { s with model := some { provider := m.provider, modelId := m.model } }
  | .compaction c => { s with compaction := some (entry, c) }
  | _ => s

/-- The messages from the first kept entry on; `found` is `foundFirstKept`. -/
def retainedMessages (firstKeptEntryId : String) : Bool → List SessionEntry → List AgentMessage
  | _, [] => []
  | found, entry :: rest =>
    if found || entry.id == firstKeptEntryId then
      (messageOf entry).toList ++ retainedMessages firstKeptEntryId true rest
    else retainedMessages firstKeptEntryId false rest

/-- The part of `buildSessionContext` after the walk. -/
def contextOfPath (path : List SessionEntry) : SessionContext :=
  let s := path.foldl step .init
  let messages :=
    match s.compaction with
    | some (entry, c) =>
      let compactionIdx := path.findIdx fun e => e.compaction?.isSome && e.id == entry.id
      let retained := retainedMessages c.firstKeptEntryId false (path.take compactionIdx)
      createCompactionSummaryMessage c.summary c.tokensBefore entry.timestamp c.customInstructions
          (some retained.length) c.harnessDigest c.harnessStateFingerprint ::
        (retained ++ (path.drop (compactionIdx + 1)).filterMap messageOf)
    | none => path.filterMap messageOf
  { messages, thinkingLevel := s.thinkingLevel, serviceTier := s.serviceTier, model := s.model }

/-- `leafId?: string | null`. -/
inductive LeafArg where
  | undefined
  | null
  | id (leafId : String)

/-- `none` is a walk that never ends. -/
def buildSessionContext (entries : List FileEntry) (leafId : LeafArg) (byId : Index) :
    Option SessionContext :=
  let fallback := entries.getLast?.bind FileEntry.entry?
  let leaf? :=
    match leafId with
    | .null => none
    | .undefined => fallback
    | .id leafId => if leafId = "" then fallback else (byId.get? leafId).or fallback
  match leaf? with
  | none => some .empty
  | some leaf => (pathTo byId leaf).map contextOfPath

/-! ## Settings: the last change on the path -/

def thinkingLevelOf? (e : SessionEntry) : Option String :=
  match e.body with
  | .thinkingLevelChange level => some level
  | _ => none

def serviceTierOf? (e : SessionEntry) : Option ServiceTier :=
  match e.body with
  | .serviceTierChange tier => some tier
  | _ => none

def modelOf? (e : SessionEntry) : Option ModelRef :=
  match e.body with
  | .modelChange provider modelId => some { provider, modelId }
  | .message (.assistant m) => some { provider := m.provider, modelId := m.model }
  | _ => none

def compactionOf? (e : SessionEntry) : Option (SessionEntry × Compaction) :=
  e.compaction?.map fun c => (e, c)

/-- The value `f` gives last along a list, `d` where it gives none. -/
def lastOf {α β : Type} (f : α → Option β) (d : β) (l : List α) : β :=
  ((l.filterMap f).getLast?).getD d

variable {α β : Type}

theorem lastOf_append (f : α → Option β) (d : β) (l r : List α) :
    lastOf f d (l ++ r) = lastOf f (lastOf f d l) r := by
  simp only [lastOf, filterMap_append, getLast?_append]
  cases (r.filterMap f).getLast? <;> simp

variable {f : α → Option β} {l : List α}

theorem lastOf_eq_of_none (h : ∀ a ∈ l, f a = none) (d : β) : lastOf f d l = d := by
  rw [lastOf, filterMap_eq_nil_iff.2 h]
  rfl

theorem lastOf_eq_of_some {a : α} (ha : a ∈ l) (h : (f a).isSome) (d d' : β) : lastOf f d l = lastOf f d' l := by
  have hne : l.filterMap f ≠ [] := by
    obtain ⟨b, hb⟩ := Option.isSome_iff_exists.1 h
    exact ne_nil_of_mem (mem_filterMap.2 ⟨a, ha, hb⟩)
  simp only [lastOf, getLast?_eq_getLast_of_ne_nil hne, Option.getD_some]

/-- A variable each step of a loop overwrites with what `f` gives ends as `lastOf f`. -/
theorem foldl_eq_lastOf {α β σ : Type} {step : σ → α → σ} {proj : σ → β} {f : α → Option β}
    (h : ∀ s a, proj (step s a) = (f a).getD (proj s)) (l : List α) (s : σ) :
    proj (l.foldl step s) = lastOf f (proj s) l := by
  induction l generalizing s with
  | nil => rfl
  | cons a l ih =>
    rw [foldl_cons, ih, h, show a :: l = [a] ++ l from rfl, lastOf_append]
    cases hf : f a <;> simp [lastOf, hf]

theorem thinkingLevel_contextOfPath (path : List SessionEntry) :
    (contextOfPath path).thinkingLevel = lastOf thinkingLevelOf? "off" path := by
  refine @foldl_eq_lastOf _ _ _ _ thinkingLevel _ (fun s e => ?_) path init
  cases hb : e.body with
  | message m => cases m <;> simp [step, thinkingLevelOf?, hb]
  | _ => simp [step, thinkingLevelOf?, hb]

theorem serviceTier_contextOfPath (path : List SessionEntry) :
    (contextOfPath path).serviceTier = lastOf serviceTierOf? .default path := by
  refine @foldl_eq_lastOf _ _ _ _ serviceTier _ (fun s e => ?_) path init
  cases hb : e.body with
  | message m => cases m <;> simp [step, serviceTierOf?, hb]
  | _ => simp [step, serviceTierOf?, hb]

theorem model_contextOfPath (path : List SessionEntry) :
    (contextOfPath path).model = lastOf (fun e => (modelOf? e).map some) none path := by
  refine @foldl_eq_lastOf _ _ _ _ model _ (fun s e => ?_) path init
  cases hb : e.body with
  | message m => cases m <;> simp [step, modelOf?, hb]
  | _ => simp [step, modelOf?, hb]

theorem compaction_scan (path : List SessionEntry) : (path.foldl step .init).compaction =
      lastOf (fun e => (compactionOf? e).map some) none path := by
  refine foldl_eq_lastOf (fun s e => ?_) path init
  cases hb : e.body with
  | message m => cases m <;> simp [step, compactionOf?, SessionEntry.compaction?, hb]
  | _ => simp [step, compactionOf?, SessionEntry.compaction?, hb]

/-! ## Messages, around the last compaction -/

theorem retainedMessages_true (k : String) (l : List SessionEntry) :
    retainedMessages k true l = l.filterMap messageOf := by
  induction l with
  | nil => rfl
  | cons e l ih =>
    simp only [retainedMessages, Bool.true_or, if_true, ih]
    cases hm : messageOf e <;> simp [hm]

theorem retainedMessages_false (k : String) (l : List SessionEntry) :
    retainedMessages k false l = (l.dropWhile fun e => e.id != k).filterMap messageOf := by
  induction l with
  | nil => rfl
  | cons e l ih =>
    by_cases hk : e.id = k
    · rw [dropWhile_cons_of_neg (by simp [hk])]
      simp only [retainedMessages, hk, beq_self_eq_true, Bool.or_true, if_true, retainedMessages_true]
      cases hm : messageOf e <;> simp [hm]
    · rw [dropWhile_cons_of_pos (by simp [hk])]
      simp [retainedMessages, hk, ih]

theorem messages_of_no_compaction {path : List SessionEntry} (h : ∀ e ∈ path, e.compaction? = none) :
    (contextOfPath path).messages = path.filterMap messageOf := by
  have hscan : (path.foldl step .init).compaction = none := by
    rw [compaction_scan]
    exact lastOf_eq_of_none (fun e he => by simp [compactionOf?, h e he]) _
  simp only [contextOfPath, hscan]

/-- The message the context opens with after a compaction. -/
def summaryMessage (entry : SessionEntry) (c : Compaction) (retained : Nat) : AgentMessage :=
  createCompactionSummaryMessage c.summary c.tokensBefore entry.timestamp c.customInstructions
    (some retained) c.harnessDigest c.harnessStateFingerprint

/-- What a compaction keeps of the entries before it. -/
def keptBefore (c : Compaction) (pre : List SessionEntry) : List AgentMessage :=
  (pre.dropWhile fun e => e.id != c.firstKeptEntryId).filterMap messageOf

variable {pre post : List SessionEntry} {entry : SessionEntry}

theorem messages_of_compaction (hc : entry.compaction? = some c) (hpre : ∀ e ∈ pre, e.id ≠ entry.id)
    (hpost : ∀ e ∈ post, e.compaction? = none) : (contextOfPath (pre ++ entry :: post)).messages =
      summaryMessage entry c (keptBefore c pre).length :: (keptBefore c pre ++ post.filterMap messageOf) := by
  have hscan : ((pre ++ entry :: post).foldl step .init).compaction = some (entry, c) := by
    rw [compaction_scan, lastOf_append, show entry :: post = [entry] ++ post from rfl, lastOf_append,
      lastOf_eq_of_none (fun e he => by simp [compactionOf?, hpost e he])]
    simp [lastOf, compactionOf?, hc]
  have hidx : (pre ++ entry :: post).findIdx (fun e => e.compaction?.isSome && e.id == entry.id) =
      pre.length := by
    rw [findIdx_append, findIdx_eq_length_of_false]
    · simp [findIdx_cons, hc]
    · intro e he
      simp [hpre e he]
  have htake : (pre ++ entry :: post).take pre.length = pre := take_left
  have hdrop : (pre ++ entry :: post).drop (pre.length + 1) = post := by
    rw [← drop_drop, drop_left]
    rfl
  simp only [contextOfPath, hscan, hidx, htake, hdrop, summaryMessage, keptBefore, retainedMessages_false]

theorem messages_of_compaction_length (hc : entry.compaction? = some c) (hpre : ∀ e ∈ pre, e.id ≠ entry.id)
    (hpost : ∀ e ∈ post, e.compaction? = none) : (contextOfPath (pre ++ entry :: post)).messages.length =
      1 + (keptBefore c pre).length + (post.filterMap messageOf).length := by
  rw [messages_of_compaction hc hpre hpost]
  simp only [length_cons, length_append]
  omega

theorem exists_last_compaction (path : List SessionEntry) : (∀ e ∈ path, e.compaction? = none) ∨
      ∃ pre entry c post, path = pre ++ entry :: post ∧ entry.compaction? = some c ∧
        ∀ e ∈ post, e.compaction? = none := by
  induction path using reverseRecOn with
  | nil => exact .inl (by simp)
  | append_singleton path e ih =>
    cases hc : e.compaction? with
    | some c => exact .inr ⟨path, e, c, [], rfl, hc, by simp⟩
    | none =>
      cases ih with
      | inl h =>
        refine .inl fun x hx => ?_
        cases mem_append.1 hx with
        | inl hx => exact h x hx
        | inr hx => rw [mem_singleton.1 hx]; exact hc
      | inr h =>
        obtain ⟨pre, entry, c, post, rfl, hentry, hpost⟩ := h
        refine .inr ⟨pre, entry, c, post ++ [e], by simp, hentry, fun x hx => ?_⟩
        cases mem_append.1 hx with
        | inl hx => exact hpost x hx
        | inr hx => rw [mem_singleton.1 hx]; exact hc

/-- There is one way to split a path at its last compaction. -/
theorem last_compaction_unique {pre' post' : List SessionEntry} {entry' : SessionEntry}
    (h : pre ++ entry :: post = pre' ++ entry' :: post') (hc : entry.compaction? ≠ none)
    (hpost : ∀ e ∈ post, e.compaction? = none) (hc' : entry'.compaction? ≠ none)
    (hpost' : ∀ e ∈ post', e.compaction? = none) : pre = pre' ∧ entry = entry' ∧ post = post' := by
  rcases append_eq_append_iff.1 h with ⟨as, h₁, h₂⟩ | ⟨as, h₁, h₂⟩
  · cases as with
    | nil =>
      obtain ⟨rfl, rfl⟩ := List.cons.inj h₂
      exact ⟨by simpa using h₁.symm, rfl, rfl⟩
    | cons a as =>
      obtain ⟨rfl, rfl⟩ := List.cons.inj h₂
      exact absurd (hpost entry' (by simp)) hc'
  · cases as with
    | nil =>
      obtain ⟨rfl, rfl⟩ := List.cons.inj h₂
      exact ⟨by simpa using h₁, rfl, rfl⟩
    | cons a as =>
      obtain ⟨rfl, rfl⟩ := List.cons.inj h₂
      exact absurd (hpost' entry (by simp)) hc

theorem SessionContext.ext_iff' {a b : SessionContext} :
    a = b ↔ a.messages = b.messages ∧ a.thinkingLevel = b.thinkingLevel ∧
      a.serviceTier = b.serviceTier ∧ a.model = b.model := by
  cases a; cases b
  simp

/-- An entry the context does not read: it sets nothing and carries no message. -/
structure Inert (e : SessionEntry) : Prop where
  compaction : e.compaction? = none
  message : messageOf e = none
  thinkingLevel : thinkingLevelOf? e = none
  serviceTier : serviceTierOf? e = none
  model : modelOf? e = none

theorem inert_of_label {e : SessionEntry} (h : e.isLabel = true) : Inert e := by
  unfold SessionEntry.isLabel at h
  split at h
  · rename_i hb
    constructor <;> simp [SessionEntry.compaction?, messageOf, thinkingLevelOf?, serviceTierOf?, modelOf?, hb]
  · cases h

theorem filterMap_inert {r : List α} (h : ∀ e ∈ r, f e = none) : (l ++ r).filterMap f = l.filterMap f := by
  rw [filterMap_append, filterMap_eq_nil_iff.2 h, append_nil]

/-- Entries the context does not read may follow a path. -/
theorem contextOfPath_append_inert {l r : List SessionEntry} (hn : ((l ++ r).map SessionEntry.id).Nodup)
    (hr : ∀ e ∈ r, Inert e) : contextOfPath (l ++ r) = contextOfPath l := by
  have hlast : ∀ {β : Type} (f : SessionEntry → Option β) (d : β), (∀ e ∈ r, f e = none) →
      lastOf f d (l ++ r) = lastOf f d l := fun f d h => by
    rw [lastOf_append, lastOf_eq_of_none h]
  refine SessionContext.ext_iff'.2 ⟨?_, ?_, ?_, ?_⟩
  · cases exists_last_compaction l with
    | inl h =>
      rw [messages_of_no_compaction h, messages_of_no_compaction, filterMap_inert fun e he => (hr e he).message]
      intro e he
      cases mem_append.1 he with
      | inl he => exact h e he
      | inr he => exact (hr e he).compaction
    | inr h =>
      obtain ⟨pre, entry, c, post, rfl, hc, hpost⟩ := h
      have hpre : ∀ e ∈ pre, e.id ≠ entry.id := by
        intro e he heq
        rw [append_assoc, map_append, nodup_append] at hn
        exact hn.2.2 _ (mem_map_of_mem he) entry.id (by simp) heq
      have hpost' : ∀ e ∈ post ++ r, e.compaction? = none := by
        intro e he
        cases mem_append.1 he with
        | inl he => exact hpost e he
        | inr he => exact (hr e he).compaction
      rw [messages_of_compaction hc hpre hpost, append_assoc, cons_append,
        messages_of_compaction hc hpre hpost', filterMap_inert fun e he => (hr e he).message]
  · rw [thinkingLevel_contextOfPath, thinkingLevel_contextOfPath, hlast _ _ fun e he => (hr e he).thinkingLevel]
  · rw [serviceTier_contextOfPath, serviceTier_contextOfPath, hlast _ _ fun e he => (hr e he).serviceTier]
  · rw [model_contextOfPath, model_contextOfPath, hlast _ _ fun e he => by simp [(hr e he).model]]

end Session
end RePrime
