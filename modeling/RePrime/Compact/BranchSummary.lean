import RePrime.Compact.FileLists

/-!
# RePrime.Compact.BranchSummary

What goes into the summary of an abandoned branch: the newest messages that fit a token budget, and
the file operations of the branch.

* `prepareBranchEntries`: back from the newest entry, until the budget is used up.
* `selection_within_budget`: the selected messages, against the budget `generateBranchSummary` asks for.
* `tracks_files_iff`: when the file operations are those of the whole branch.
-/

namespace RePrime
namespace Compact
namespace Branch

open Session List

/-! ## The selection -/

/-- Tool results stay with the call that asked for them; harness digests are never summarized. -/
def getMessageFromEntry (entry : SessionEntry) : Option AgentMessage :=
  match entry.body with
  | .message (.toolResult _) => none
  | .message m => some m
  | .customMessage c =>
    if c.customType = harnessDigestCustomType then none
    else some (createCustomMessage c.customType c.content c.display c.details entry.timestamp)
  | .branchSummary b => some (createBranchSummaryMessage b.summary b.fromId entry.timestamp)
  | .compaction c =>
    some (createCompactionSummaryMessage c.summary c.tokensBefore entry.timestamp
      c.customInstructions none none none)
  | _ => none

structure BranchPreparation where
  messages : List AgentMessage
  fileOps : FileOperations
  totalTokens : Nat

open BranchPreparation

/-- The lists of a branch summary count unless an extension wrote it. -/
def summaryLists (entry : SessionEntry) : FileLists :=
  match entry.body with
  | .branchSummary b => if b.fromHook = some true then noFiles else storedLists b.details
  | _ => noFiles

def addSummary (ops : FileOperations) (entry : SessionEntry) : FileOperations :=
  (summaryLists entry).modifiedFiles.foldl .addEdited ((summaryLists entry).readFiles.foldl .addRead ops)

def isSummaryEntry (entry : SessionEntry) : Bool :=
  match entry.body with
  | .compaction _ | .branchSummary _ => true
  | _ => false

def BranchPreparation.unshift (p : BranchPreparation) (message : AgentMessage) : BranchPreparation :=
  { p with
    messages := message :: p.messages
    totalTokens := p.totalTokens + estimateTokens message }

/-- The loop over the entries, newest first. A summary may go over the budget while less than nine
tenths of it are used; nothing older is looked at then. -/
def select (tokenBudget : Int) : List SessionEntry → BranchPreparation → BranchPreparation
  | [], p => p
  | entry :: older, p =>
    match getMessageFromEntry entry with
    | none => select tokenBudget older p
    | some message =>
      let p := { p with fileOps := extractFileOpsFromMessage message p.fileOps }
      if 0 < tokenBudget ∧ tokenBudget < p.totalTokens + estimateTokens message then
        if isSummaryEntry entry = true ∧ 10 * (p.totalTokens : Int) < 9 * tokenBudget then p.unshift message
        else p
      else select tokenBudget older (p.unshift message)

def prepareBranchEntries (entries : List SessionEntry) (tokenBudget : Int) : BranchPreparation :=
  select tokenBudget entries.reverse
    { messages := [], fileOps := entries.foldl addSummary createFileOps, totalTokens := 0 }

/-- The budget of `generateBranchSummary`: a context window of zero counts as 128000. -/
def tokenBudget (contextWindow reserveTokens : Int) : Int :=
  (if contextWindow = 0 then 128000 else contextWindow) - reserveTokens

/-! ## Messages and tokens -/

def tokensOf (messages : List AgentMessage) : Nat := (messages.map estimateTokens).sum

@[simp] theorem tokensOf_nil : tokensOf [] = 0 := rfl

@[simp] theorem tokensOf_cons (m : AgentMessage) (ms : List AgentMessage) :
    tokensOf (m :: ms) = estimateTokens m + tokensOf ms := rfl

@[simp] theorem tokensOf_snoc (ms : List AgentMessage) (m : AgentMessage) :
    tokensOf (ms ++ [m]) = tokensOf ms + estimateTokens m := by
  simp [tokensOf]

def isSummaryMessage : AgentMessage → Bool
  | .branchSummary _ | .compactionSummary _ => true
  | _ => false

variable {m : AgentMessage}

theorem isSummaryMessage_of_entry {entry : SessionEntry}
    (h : isSummaryEntry entry = true) (hm : getMessageFromEntry entry = some m) : isSummaryMessage m = true := by
  unfold isSummaryEntry at h
  unfold getMessageFromEntry at hm
  cases hb : entry.body <;> simp only [hb] at h hm <;> cases h <;> cases hm <;> rfl

/-- `taken` are the newest of `messages` within the budget, in front of `kept` tokens; the oldest of
them may be a summary that goes over it. -/
structure Newest (tokenBudget : Int) (kept : Nat) (messages taken : List AgentMessage) : Prop where
  newest : taken <:+ messages
  budget : 0 < tokenBudget → kept + tokensOf taken ≤ tokenBudget ∨
    ∃ summary rest, taken = summary :: rest ∧ isSummaryMessage summary = true ∧
      10 * ((kept + tokensOf rest : Nat) : Int) < 9 * tokenBudget
  full : ∀ older m, messages = older ++ m :: taken →
    0 < tokenBudget ∧ tokenBudget < kept + tokensOf taken + estimateTokens m

variable {b : Int} {kept : Nat} {messages : List AgentMessage}

theorem Newest.snoc {taken : List AgentMessage} (h : Newest b (kept + estimateTokens m) messages taken) :
    Newest b kept (messages ++ [m]) (taken ++ [m]) where
  newest := by
    obtain ⟨older, rfl⟩ := h.newest
    exact ⟨older, (append_assoc _ _ _).symm⟩
  budget hb := by
    obtain hle | ⟨summary, rest, rfl, hs, hrest⟩ := h.budget hb
    · left
      rw [tokensOf_snoc]
      omega
    · right
      refine ⟨summary, rest ++ [m], rfl, hs, ?_⟩
      rw [tokensOf_snoc]
      omega
  full older m' heq := by
    have hcut : messages = older ++ m' :: taken :=
      append_cancel_right (heq.trans (by rw [append_assoc, cons_append]))
    obtain ⟨hb, hlt⟩ := h.full older m' hcut
    refine ⟨hb, ?_⟩
    rw [tokensOf_snoc]
    omega

theorem newest_nil (hfits : 0 < b → (kept : Int) ≤ b) (hover : 0 < b ∧ b < (kept : Int) + estimateTokens m) :
    Newest b kept (messages ++ [m]) [] where
  newest := nil_suffix
  budget hb := .inl (by simpa using hfits hb)
  full older m' heq := by
    obtain rfl := singleton_inj.1 (append_inj' heq rfl).2
    simpa using hover

theorem newest_summary (hm : isSummaryMessage m = true) (hroom : 10 * (kept : Int) < 9 * b)
    (hover : 0 < b ∧ b < (kept : Int) + estimateTokens m) : Newest b kept (messages ++ [m]) [m] where
  newest := suffix_append _ _
  budget hb := .inr ⟨m, [], rfl, hm, by simpa using hroom⟩
  full older m' heq := by
    refine ⟨hover.1, ?_⟩
    rw [tokensOf_cons, tokensOf_nil]
    omega

theorem select_newest (b : Int) (entries : List SessionEntry) (p : BranchPreparation)
    (hfits : 0 < b → (p.totalTokens : Int) ≤ b) : ∃ taken, (select b entries p).messages = taken ++ p.messages ∧
      (select b entries p).totalTokens = p.totalTokens + tokensOf taken ∧
      Newest b p.totalTokens (entries.filterMap getMessageFromEntry).reverse taken := by
  induction entries generalizing p with
  | nil =>
    refine ⟨[], rfl, rfl, nil_suffix, fun hb => .inl (by simpa using hfits hb), ?_⟩
    intro older m heq
    simp at heq
  | cons entry older ih =>
    cases hm : getMessageFromEntry entry with
    | none =>
      simp only [select, hm, filterMap_cons_none hm]
      exact ih p hfits
    | some m =>
      simp only [select, hm, filterMap_cons_some hm, reverse_cons]
      by_cases hover : 0 < b ∧ b < p.totalTokens + estimateTokens m
      · rw [if_pos hover]
        split
        · rename_i hsum
          exact ⟨[m], rfl, rfl, newest_summary (isSummaryMessage_of_entry hsum.1 hm) hsum.2 hover⟩
        · exact ⟨[], rfl, rfl, newest_nil hfits hover⟩
      · rw [if_neg hover]
        have hfits' : 0 < b → ((p.totalTokens + estimateTokens m : Nat) : Int) ≤ b := by
          intro hb
          have : ¬b < p.totalTokens + estimateTokens m := fun hlt => hover ⟨hb, hlt⟩
          omega
        obtain ⟨taken, hmessages, htotal, hnew⟩ :=
          ih (unshift { p with fileOps := extractFileOpsFromMessage m p.fileOps } m) hfits'
        refine ⟨taken ++ [m], ?_, ?_, hnew.snoc⟩
        · rw [hmessages, append_assoc]
          rfl
        · rw [htotal, tokensOf_snoc]
          simp only [unshift]
          omega

theorem prepareBranchEntries_newest (entries : List SessionEntry) (b : Int) :
    (prepareBranchEntries entries b).totalTokens = tokensOf (prepareBranchEntries entries b).messages ∧
      Newest b 0 (entries.filterMap getMessageFromEntry) (prepareBranchEntries entries b).messages := by
  obtain ⟨taken, hmessages, htotal, hnew⟩ := select_newest b entries.reverse
    { messages := [], fileOps := entries.foldl addSummary createFileOps, totalTokens := 0 }
    fun hb => by simpa using Int.le_of_lt hb
  rw [filterMap_reverse, reverse_reverse] at hnew
  rw [append_nil] at hmessages
  rw [prepareBranchEntries, hmessages]
  exact ⟨htotal.trans (Nat.zero_add _), hnew⟩

/-- The messages selected for a branch summary are the newest that fit the budget, apart from one
summary that may go over it; a budget of zero is no limit. -/
theorem selection_within_budget (entries : List SessionEntry) (contextWindow reserveTokens : Int) :
    let b := tokenBudget contextWindow reserveTokens
    let p := prepareBranchEntries entries b
    p.totalTokens = tokensOf p.messages ∧
      (0 < b → Newest b 0 (entries.filterMap getMessageFromEntry) p.messages) ∧
      (b = 0 → p.messages = entries.filterMap getMessageFromEntry) := by
  intro b p
  obtain ⟨htotal, hnew⟩ := prepareBranchEntries_newest entries b
  refine ⟨htotal, fun _ => hnew, fun hb => ?_⟩
  obtain ⟨older, hsplit⟩ := hnew.newest
  cases eq_nil_or_concat older with
  | inl hnil =>
    rw [hnil] at hsplit
    exact hsplit
  | inr hsnoc =>
    obtain ⟨older, m, rfl⟩ := hsnoc
    rw [concat_eq_append, append_assoc] at hsplit
    exact absurd (hnew.full older m hsplit.symm).1 (by omega)

/-- A reserve as large as the window leaves no budget, which is no limit. -/
theorem selection_without_limit : (prepareBranchEntries [pathEntry "a" none (.message (userMessage "one"))]
        (tokenBudget 16384 16384)).messages = [userMessage "one"] ∧ isSummaryMessage (userMessage "one") = false ∧
      (16384 : Int) - 16384 < (prepareBranchEntries [pathEntry "a" none (.message (userMessage "one"))]
        (tokenBudget 16384 16384)).totalTokens :=
  ⟨rfl, rfl, by decide⟩

/-! ## File operations -/

/-- What the message of an entry modifies, and what of it a selection can see. -/
def recordedBy (entry : SessionEntry) : List String := (message? entry).elim [] modifiedBy

def seenFiles (entry : SessionEntry) : List String := (getMessageFromEntry entry).elim [] modifiedBy

def isToolResult (entry : SessionEntry) : Bool :=
  match entry.body with
  | .message (.toolResult _) => true
  | _ => false

/-- What is newer than an entry fits the budget. -/
def InReach (tokenBudget : Int) (newer : List SessionEntry) : Prop :=
  0 < tokenBudget → tokensOf (newer.filterMap getMessageFromEntry) ≤ tokenBudget

variable {f : String}

theorem mem_seenFiles {entry : SessionEntry} :
    f ∈ seenFiles entry ↔ isToolResult entry = false ∧ f ∈ recordedBy entry := by
  unfold seenFiles isToolResult recordedBy getMessageFromEntry message?
  cases entry.body with
  | message m => cases m <;> simp [modifiedBy]
  | customMessage c =>
    dsimp only
    split <;> simp [modifiedBy, createCustomMessage]
  | branchSummary b => simp [modifiedBy, createBranchSummaryMessage]
  | compaction c => simp [modifiedBy, createCompactionSummaryMessage]
  | _ => simp

theorem exists_middle_cons {α : Type} {P : List α → α → Prop} {x : α} {l : List α} :
    (∃ newer e older, x :: l = newer ++ e :: older ∧ P newer e) ↔
      P [] x ∨ ∃ newer e older, l = newer ++ e :: older ∧ P (x :: newer) e := by
  constructor
  · rintro ⟨newer, e, older, heq, hp⟩
    cases newer with
    | nil =>
      obtain ⟨rfl, -⟩ := List.cons.inj heq
      exact .inl hp
    | cons y newer =>
      obtain ⟨rfl, hl⟩ := List.cons.inj heq
      exact .inr ⟨newer, e, older, hl, hp⟩
  · rintro (hp | ⟨newer, e, older, rfl, hp⟩)
    · exact ⟨[], x, l, rfl, hp⟩
    · exact ⟨x :: newer, e, older, rfl, hp⟩

theorem mem_edited_select (b : Int) (entries : List SessionEntry) (p : BranchPreparation)
    (hfits : 0 < b → (p.totalTokens : Int) ≤ b) : f ∈ (select b entries p).fileOps.edited ↔
      f ∈ p.fileOps.edited ∨ ∃ newer e older, entries = newer ++ e :: older ∧
        (0 < b → ((p.totalTokens + tokensOf (newer.filterMap getMessageFromEntry) : Nat) : Int) ≤ b) ∧
        f ∈ seenFiles e := by
  induction entries generalizing p with
  | nil => simp [select]
  | cons entry older ih =>
    rw [@exists_middle_cons SessionEntry (fun newer e =>
      (0 < b → ((p.totalTokens + tokensOf (newer.filterMap getMessageFromEntry) : Nat) : Int) ≤ b) ∧
        f ∈ seenFiles e)]
    cases hm : getMessageFromEntry entry with
    | none =>
      have hseen : seenFiles entry = [] := by rw [seenFiles, hm, Option.elim_none]
      simp only [select, hm, ih p hfits, hseen, not_mem_nil, and_false, false_or, filterMap_cons_none hm]
    | some m =>
      have hseen : seenFiles entry = modifiedBy m := by rw [seenFiles, hm, Option.elim_some]
      have hhere : (0 < b → ((p.totalTokens + tokensOf [] : Nat) : Int) ≤ b) ∧ f ∈ modifiedBy m ↔
          f ∈ modifiedBy m := and_iff_right (by simpa using hfits)
      simp only [select, hm, hseen, filterMap_nil, hhere, filterMap_cons_some hm, tokensOf_cons]
      by_cases hover : 0 < b ∧ b < p.totalTokens + estimateTokens m
      · -- nothing older is reached
        have hnone : ¬∃ newer e older', older = newer ++ e :: older' ∧
            (0 < b → ((p.totalTokens + (estimateTokens m +
              tokensOf (newer.filterMap getMessageFromEntry)) : Nat) : Int) ≤ b) ∧ f ∈ seenFiles e := by
          rintro ⟨newer, e, older', -, hreach, -⟩
          have := hreach hover.1
          omega
        rw [if_pos hover, or_iff_left hnone, ← mem_edited_extract]
        split <;> rfl
      · have hfits' : 0 < b → ((p.totalTokens + estimateTokens m : Nat) : Int) ≤ b := by
          intro hb
          have : ¬b < p.totalTokens + estimateTokens m := fun hlt => hover ⟨hb, hlt⟩
          omega
        rw [if_neg hover, ih (unshift
          { p with fileOps := extractFileOpsFromMessage m p.fileOps } m) hfits', ← or_assoc,
          ← mem_edited_extract]
        simp only [unshift, Nat.add_assoc]

theorem read_select (b : Int) (entries : List SessionEntry) (p : BranchPreparation) :
    (select b entries p).fileOps.read = p.fileOps.read := by
  induction entries generalizing p with
  | nil => rfl
  | cons entry older ih =>
    cases hm : getMessageFromEntry entry with
    | none =>
      simp only [select, hm]
      exact ih p
    | some m =>
      have hread : (extractFileOpsFromMessage m p.fileOps).read = p.fileOps.read := by
        rw [extractFileOpsFromMessage_eq]
      simp only [select, hm]
      split
      · split <;> exact hread
      · rw [ih]
        exact hread

theorem addSummary_eq (ops : FileOperations) (entry : SessionEntry) : addSummary ops entry = { ops with
        read := (summaryLists entry).readFiles.foldl add ops.read
        edited := (summaryLists entry).modifiedFiles.foldl add ops.edited } := by
  rw [addSummary, foldl_addEdited, foldl_addRead]

variable {entries : List SessionEntry}

theorem mem_read_foldl_addSummary {ops : FileOperations} : f ∈ (entries.foldl addSummary ops).read ↔
      f ∈ ops.read ∨ ∃ e ∈ entries, f ∈ (summaryLists e).readFiles := by
  induction entries generalizing ops with
  | nil => simp
  | cons e entries ih =>
    rw [foldl_cons, ih, addSummary_eq]
    simp only [mem_foldl_add, mem_cons, exists_eq_or_imp, or_assoc]

theorem mem_edited_foldl_addSummary {ops : FileOperations} : f ∈ (entries.foldl addSummary ops).edited ↔
      f ∈ ops.edited ∨ ∃ e ∈ entries, f ∈ (summaryLists e).modifiedFiles := by
  induction entries generalizing ops with
  | nil => simp
  | cons e entries ih =>
    rw [foldl_cons, ih, addSummary_eq]
    simp only [mem_foldl_add, mem_cons, exists_eq_or_imp, or_assoc]

theorem mem_read_prepare : f ∈ (prepareBranchEntries entries b).fileOps.read ↔
      ∃ e ∈ entries, f ∈ (summaryLists e).readFiles := by
  rw [prepareBranchEntries, read_select, mem_read_foldl_addSummary]
  exact or_iff_right not_mem_nil

theorem inReach_reverse {newer : List SessionEntry} : InReach b newer.reverse ↔ InReach b newer := by
  rw [InReach, InReach, filterMap_reverse, tokensOf, map_reverse, sum_reverse]
  rfl

theorem mem_edited_prepare : f ∈ (prepareBranchEntries entries b).fileOps.edited ↔
      (∃ e ∈ entries, f ∈ (summaryLists e).modifiedFiles) ∨
        ∃ older e newer, entries = older ++ e :: newer ∧ InReach b newer ∧ isToolResult e = false ∧
          f ∈ recordedBy e := by
  rw [prepareBranchEntries, mem_edited_select _ _ _ (fun hb => by simpa using Int.le_of_lt hb),
    mem_edited_foldl_addSummary]
  simp only [Nat.zero_add]
  refine or_congr (or_iff_right not_mem_nil) ?_
  constructor
  · rintro ⟨newer, e, older, heq, hreach, hf⟩
    refine ⟨older.reverse, e, newer.reverse, ?_, inReach_reverse.2 hreach, mem_seenFiles.1 hf⟩
    rw [← reverse_reverse entries, heq]
    simp
  · rintro ⟨older, e, newer, rfl, hreach, hf⟩
    exact ⟨newer.reverse, e, older.reverse, by simp, inReach_reverse.2 hreach, mem_seenFiles.2 hf⟩

/-- Every file the entries of a branch record is in the file operations prepared for it. -/
def TracksFiles (entries : List SessionEntry) (tokenBudget : Int) : Prop :=
  ∀ e ∈ entries,
    (∀ f ∈ (summaryLists e).readFiles, f ∈ (prepareBranchEntries entries tokenBudget).fileOps.read) ∧
      ∀ f, f ∈ (summaryLists e).modifiedFiles ∨ f ∈ recordedBy e →
        f ∈ (prepareBranchEntries entries tokenBudget).fileOps.edited

/-- Files are lost exactly when a tool result, or a message out of the budget's reach, is all that
records them. -/
theorem tracks_files_iff (entries : List SessionEntry) (b : Int) : TracksFiles entries b ↔
      ∀ older e newer, entries = older ++ e :: newer → isToolResult e = true ∨ ¬InReach b newer →
        ∀ f ∈ recordedBy e, (∃ s ∈ entries, f ∈ (summaryLists s).modifiedFiles) ∨
            ∃ older' e' newer', entries = older' ++ e' :: newer' ∧ InReach b newer' ∧
              isToolResult e' = false ∧ f ∈ recordedBy e' := by
  constructor
  · intro h older e newer heq _ f hf
    have he : e ∈ entries := by
      rw [heq]
      exact mem_append_right _ mem_cons_self
    exact mem_edited_prepare.1 ((h e he).2 f (.inr hf))
  · intro h e he
    refine ⟨fun f hf => mem_read_prepare.2 ⟨e, he, hf⟩, fun f hf => mem_edited_prepare.2 ?_⟩
    obtain hf | hf := hf
    · exact .inl ⟨e, he, hf⟩
    · obtain ⟨older, newer, heq⟩ := append_of_mem he
      by_cases hseen : isToolResult e = true ∨ ¬InReach b newer
      · exact h older e newer heq hseen f hf
      · rw [not_or, not_not, Bool.not_eq_true] at hseen
        exact .inr ⟨older, e, newer, heq, hseen.2, hseen.1, hf⟩

/-- One result of the kernel, which reports an edit. -/
def kernelBranch : List SessionEntry :=
  [pathEntry "a" none (.message (.toolResult
    { toolCallId := "call", toolName := "ipython", content := []
      details := some (.object [("diffs", .array [.object [("path", .string "a.ts")]])])
      isError := false, timestamp := 0 }))]

theorem kernel_edit_lost : ¬TracksFiles kernelBranch 0 := by
  intro h
  have hmem := (h _ mem_cons_self).2 "a.ts" (.inr (by decide))
  have hnone : (prepareBranchEntries kernelBranch 0).fileOps.edited = [] := rfl
  rw [hnone] at hmem
  cases hmem

end Branch
end Compact
end RePrime
