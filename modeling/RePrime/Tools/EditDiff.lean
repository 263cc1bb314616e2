import Mathlib.Tactic.IntervalCases
import RePrime.Lib.JsText
import RePrime.Lib.Lines

/-!
# RePrime.Tools.EditDiff

Replacing texts of a file: every edit is located in one base text, the content or its normal form for
fuzzy matching, and all replacements are made at once.

* `normalizeForFuzzyMatch_idem`: the normal form of a normal form.
* `apply_eq_ok`: when edits are applied, and to what.
* `substitutesAll`: what the replacements make of the base.
* `applyEdits_order_iff`: the order of the edits never matters for a content exactly when its normal form
  has more than two units.
-/

namespace RePrime
namespace Tools

open JsText List
open Lines

/-! ## Normal forms -/

def carriageReturn : UInt16 := 13

/-- `\r\n`, then every other `\r`, becomes `\n`. -/
def normalizeToLF : JsString → JsString
  | [] => []
  | [u] => if u = carriageReturn then [newline] else [u]
  | u :: v :: rest =>
    if u = carriageReturn then
      if v = newline then newline :: normalizeToLF rest else newline :: normalizeToLF (v :: rest)
    else u :: normalizeToLF (v :: rest)

/-- Quotation marks, dashes and spaces that have an ASCII form. -/
def asciify (u : UInt16) : UInt16 :=
  if u = 0x2018 ∨ u = 0x2019 ∨ u = 0x201A ∨ u = 0x201B then 39
  else if u = 0x201C ∨ u = 0x201D ∨ u = 0x201E ∨ u = 0x201F then 34
  else if (0x2010 ≤ u ∧ u ≤ 0x2015) ∨ u = 0x2212 then 45
  else if u = 0xA0 ∨ (0x2002 ≤ u ∧ u ≤ 0x200A) ∨ u = 0x202F ∨ u = 0x205F ∨ u = 0x3000 then 32
  else u

/-- What is used of `normalize("NFKC")`. -/
structure IsNfkc (nfkc : JsString → JsString) : Prop where
  ascii : ∀ s : JsString, (∀ u ∈ s, u < 128) → nfkc s = s
  idem : ∀ s, nfkc (nfkc s) = nfkc s
  newline : ∀ a b, nfkc (a ++ newline :: b) = nfkc a ++ newline :: nfkc b
  part : ∀ s t, nfkc s = s → t <:+: s → nfkc t = t
  asciify : ∀ s, nfkc s = s → nfkc (s.map asciify) = s.map asciify

section

variable (nfkc : JsString → JsString)

def normalizeForFuzzyMatch (text : JsString) : JsString :=
  (join newline ((split newline (nfkc text)).map trimEnd)).map asciify

/-! ## Matching -/

structure FuzzyMatchResult where
  found : Bool
  index : Int
  matchLength : Nat
  usedFuzzyMatch : Bool
  contentForReplacement : JsString

structure Edit where
  oldText : JsString
  newText : JsString

/-- A region, and what replaces it. -/
structure Place where
  matchIndex : Nat
  matchLength : Nat
  newText : JsString

structure MatchedEdit extends Place where
  editIndex : Nat

structure AppliedEditsResult where
  baseContent : JsString
  newContent : JsString

def fuzzyFindText (content oldText : JsString) : FuzzyMatchResult :=
  match indexOf oldText content with
  | some exactIndex =>
    { found := true, index := exactIndex, matchLength := oldText.length, usedFuzzyMatch := false
      contentForReplacement := content }
  | none =>
    let fuzzyContent := normalizeForFuzzyMatch nfkc content
    let fuzzyOldText := normalizeForFuzzyMatch nfkc oldText
    match indexOf fuzzyOldText fuzzyContent with
    | none =>
      { found := false, index := -1, matchLength := 0, usedFuzzyMatch := false
        contentForReplacement := content }
    | some fuzzyIndex =>
      { found := true, index := fuzzyIndex, matchLength := fuzzyOldText.length, usedFuzzyMatch := true
        contentForReplacement := fuzzyContent }

def countOccurrences (content oldText : JsString) : Int :=
  splitLength (normalizeForFuzzyMatch nfkc oldText) (normalizeForFuzzyMatch nfkc content)

/-! ## Errors -/

inductive EditError where
  | emptyOldText (editIndex totalEdits : Nat)
  | notFound (editIndex totalEdits : Nat)
  | duplicate (editIndex totalEdits : Nat) (occurrences : Int)
  | overlap (previous current : Nat)
  | noChange (totalEdits : Nat)

/-- `edits[i]`, and the other words for the one edit of a list of one. -/
def editName (editIndex totalEdits : Nat) (alone : String) : String :=
  if totalEdits = 1 then alone else "edits[" ++ toString editIndex ++ "]"

def getEmptyOldTextError (path : String) (editIndex totalEdits : Nat) : String :=
  editName editIndex totalEdits "oldText" ++ (if totalEdits = 1 then "" else ".oldText") ++ " must not be empty in " ++
    path ++ "."

def getNotFoundError (path : String) (editIndex totalEdits : Nat) : String :=
  "Could not find " ++ editName editIndex totalEdits "the exact text" ++ " in " ++ path ++
    ((if totalEdits = 1 then ". The old text" else ". The oldText") ++
      " must match exactly including all whitespace and newlines.")

def getDuplicateError (path : String) (editIndex totalEdits : Nat) (occurrences : Int) : String :=
  "Found " ++ toString occurrences ++ " occurrences of " ++ editName editIndex totalEdits "the text" ++
    " in " ++ path ++
    ((if totalEdits = 1 then ". The text" else ". Each oldText") ++
      " must be unique. Please provide more context to make it unique.")

def getNoChangeError (path : String) (totalEdits : Nat) : String :=
  "No changes made to " ++ path ++
    if totalEdits = 1 then ". The replacement produced identical content. This might indicate an issue with special " ++
      "characters or the text not existing as expected."
    else ". The replacements produced identical content."

/-- The text of the error for the file of that path. -/
def EditError.message (path : String) : EditError → String
  | .emptyOldText editIndex totalEdits => getEmptyOldTextError path editIndex totalEdits
  | .notFound editIndex totalEdits => getNotFoundError path editIndex totalEdits
  | .duplicate editIndex totalEdits occurrences => getDuplicateError path editIndex totalEdits occurrences
  | .overlap previous current =>
    "edits[" ++ toString previous ++ "] and edits[" ++ toString current ++ "] overlap in " ++ path ++
      ". Merge them into one edit or target disjoint regions."
  | .noChange totalEdits => getNoChangeError path totalEdits

/-- Every error names the file. -/
theorem EditError.path_in_message (path : String) (e : EditError) :
    ∃ front back, e.message path = front ++ path ++ back := by
  unfold message getEmptyOldTextError getNotFoundError getDuplicateError getNoChangeError
  cases e with
  | emptyOldText | notFound | duplicate | overlap | noChange => exact ⟨_, _, rfl⟩

/-! ## Applying -/

def normalizeEdit (edit : Edit) : Edit :=
  { oldText := normalizeToLF edit.oldText, newText := normalizeToLF edit.newText }

/-- The first edit without an old text. -/
def firstEmpty (totalEdits : Nat) : Nat → List Edit → Except EditError Unit
  | _, [] => .ok ()
  | i, edit :: rest =>
    if edit.oldText.length = 0 then .error (.emptyOldText i totalEdits) else firstEmpty totalEdits (i + 1) rest

def baseOf (normalizedContent : JsString) (edits : List Edit) : JsString :=
  if edits.any fun edit => (fuzzyFindText nfkc normalizedContent edit.oldText).usedFuzzyMatch then
    normalizeForFuzzyMatch nfkc normalizedContent
  else normalizedContent

/-- The edits located in the base. -/
def matchEdits (baseContent : JsString) (totalEdits : Nat) : Nat → List Edit → Except EditError (List MatchedEdit)
  | _, [] => .ok []
  | i, edit :: rest =>
    let matchResult := fuzzyFindText nfkc baseContent edit.oldText
    if matchResult.found = false then .error (.notFound i totalEdits)
    else
      let occurrences := countOccurrences nfkc baseContent edit.oldText
      if 1 < occurrences then .error (.duplicate i totalEdits occurrences)
      else
        match matchEdits baseContent totalEdits (i + 1) rest with
        | .error e => .error e
        | .ok matched =>
          .ok ({ editIndex := i
                 matchIndex := matchResult.index.toNat
                 matchLength := matchResult.matchLength
                 newText := edit.newText } :: matched)

def byIndex (a b : MatchedEdit) : Bool := decide (a.matchIndex ≤ b.matchIndex)

/-- The first two neighbours that overlap. -/
def checkOverlap : List MatchedEdit → Except EditError Unit
  | previous :: current :: rest =>
    if current.matchIndex < previous.matchIndex + previous.matchLength then
      .error (.overlap previous.editIndex current.editIndex)
    else checkOverlap (current :: rest)
  | _ => .ok ()

/-- From the last edit to the first. -/
def applyMatches (baseContent : JsString) (matched : List MatchedEdit) : JsString :=
  matched.foldr (fun edit newContent =>
    newContent.take edit.matchIndex ++ edit.newText ++ newContent.drop (edit.matchIndex + edit.matchLength))
    baseContent

def applyEditsToNormalizedContent (normalizedContent : JsString) (edits : List Edit) :
    Except EditError AppliedEditsResult :=
  let normalizedEdits := edits.map normalizeEdit
  match firstEmpty normalizedEdits.length 0 normalizedEdits with
  | .error e => .error e
  | .ok _ =>
    let baseContent := baseOf nfkc normalizedContent normalizedEdits
    match matchEdits nfkc baseContent normalizedEdits.length 0 normalizedEdits with
    | .error e => .error e
    | .ok matched =>
      let matchedEdits := matched.mergeSort byIndex
      match checkOverlap matchedEdits with
      | .error e => .error e
      | .ok _ =>
        let newContent := applyMatches baseContent matchedEdits
        if baseContent = newContent then .error (.noChange normalizedEdits.length)
        else .ok { baseContent, newContent }

end

/-! ## The normal form of a normal form -/

theorem asciify_newline_iff (u : UInt16) : asciify u = newline ↔ u = newline := by
  unfold asciify
  constructor
  · intro h
    split at h
    · cases h
    · split at h
      · cases h
      · split at h
        · cases h
        · split at h
          · cases h
          · exact h
  · rintro rfl
    rfl

variable {u : UInt16}

theorem eq_of_range {lo hi : UInt16} (hlo : lo ≤ u) (hhi : u ≤ hi) :
    ∃ n, lo.toNat ≤ n ∧ n ≤ hi.toNat ∧ u = UInt16.ofNat n :=
  ⟨u.toNat, hlo, hhi, UInt16.ofNat_toNat.symm⟩

theorem isSpace_dash (h : (0x2010 ≤ u ∧ u ≤ 0x2015) ∨ u = 0x2212) : isSpace u = false := by
  obtain ⟨hlo, hhi⟩ | rfl := h
  · obtain ⟨n, hn, hn', rfl⟩ := eq_of_range hlo hhi
    have hn : 0x2010 ≤ n := hn
    have hn' : n ≤ 0x2015 := hn'
    interval_cases n <;> rfl
  · rfl

theorem isSpace_special
    (h : u = 0xA0 ∨ (0x2002 ≤ u ∧ u ≤ 0x200A) ∨ u = 0x202F ∨ u = 0x205F ∨ u = 0x3000) : isSpace u = true := by
  obtain rfl | ⟨hlo, hhi⟩ | rfl | rfl | rfl := h
  · rfl
  · obtain ⟨n, hn, hn', rfl⟩ := eq_of_range hlo hhi
    have hn : 0x2002 ≤ n := hn
    have hn' : n ≤ 0x200A := hn'
    interval_cases n <;> rfl
  · rfl
  · rfl
  · rfl

theorem asciify_cases (u : UInt16) :
    (isSpace u = false ∧ (asciify u = 39 ∨ asciify u = 34 ∨ asciify u = 45)) ∨
      (isSpace u = true ∧ asciify u = 32) ∨ asciify u = u := by
  by_cases hsingle : u = 0x2018 ∨ u = 0x2019 ∨ u = 0x201A ∨ u = 0x201B
  · have hspace : isSpace u = false := by
      obtain rfl | rfl | rfl | rfl := hsingle <;> rfl
    exact .inl ⟨hspace, .inl (if_pos hsingle)⟩
  · by_cases hdouble : u = 0x201C ∨ u = 0x201D ∨ u = 0x201E ∨ u = 0x201F
    · have hspace : isSpace u = false := by
        obtain rfl | rfl | rfl | rfl := hdouble <;> rfl
      exact .inl ⟨hspace, .inr (.inl (by rw [asciify, if_neg hsingle, if_pos hdouble]))⟩
    · by_cases hdash : (0x2010 ≤ u ∧ u ≤ 0x2015) ∨ u = 0x2212
      · exact .inl ⟨isSpace_dash hdash,
          .inr (.inr (by rw [asciify, if_neg hsingle, if_neg hdouble, if_pos hdash]))⟩
      · by_cases hspecial :
          u = 0xA0 ∨ (0x2002 ≤ u ∧ u ≤ 0x200A) ∨ u = 0x202F ∨ u = 0x205F ∨ u = 0x3000
        · exact .inr (.inl ⟨isSpace_special hspecial,
            by rw [asciify, if_neg hsingle, if_neg hdouble, if_neg hdash, if_pos hspecial]⟩)
        · exact .inr (.inr (by
            rw [asciify, if_neg hsingle, if_neg hdouble, if_neg hdash, if_neg hspecial]))

theorem isSpace_asciify (u : UInt16) : isSpace (asciify u) = isSpace u := by
  obtain ⟨hspace, h | h | h⟩ | ⟨hspace, h⟩ | h := asciify_cases u
  · rw [h, hspace]; rfl
  · rw [h, hspace]; rfl
  · rw [h, hspace]; rfl
  · rw [h, hspace]; rfl
  · rw [h]

theorem asciify_asciify (u : UInt16) : asciify (asciify u) = asciify u := by
  obtain ⟨-, h | h | h⟩ | ⟨-, h⟩ | h := asciify_cases u
  · rw [h]; rfl
  · rw [h]; rfl
  · rw [h]; rfl
  · rw [h]; rfl
  · rw [h, h]

section

variable {nfkc : JsString → JsString}

theorem nfkc_join (hn : IsNfkc nfkc) {lines : List JsString} (h : ∀ line ∈ lines, nfkc line = line) :
    nfkc (join newline lines) = join newline lines := by
  induction lines with
  | nil => exact hn.ascii _ (by intro u hu; cases hu)
  | cons line lines ih =>
    by_cases hnil : lines = []
    · rw [hnil, join_singleton]
      exact h line mem_cons_self
    · rw [join_cons line hnil, hn.newline, h line mem_cons_self,
        ih fun l hl => h l (mem_cons_of_mem _ hl)]

theorem map_asciify_join (lines : List JsString) :
    (join newline lines).map asciify =
      join newline (lines.map fun line => line.map asciify) := by
  induction lines with
  | nil => rfl
  | cons line lines ih =>
    by_cases hnil : lines = []
    · rw [hnil, join_singleton, map_singleton, join_singleton]
    · rw [join_cons line hnil, map_append, map_cons, ih, map_cons,
        join_cons _ (by simpa using hnil), (asciify_newline_iff newline).2 rfl]

theorem trimEnd_map_asciify (line : JsString) :
    trimEnd ((trimEnd line).map asciify) = (trimEnd line).map asciify := by
  rw [trimEnd, rdropWhile_eq_self_iff]
  intro hne
  have hne' : line.rdropWhile isSpace ≠ [] := by simpa [trimEnd] using hne
  rw [getLast_map, isSpace_asciify]
  exact rdropWhile_last_not isSpace line hne'

theorem normalizeForFuzzyMatch_idem (hn : IsNfkc nfkc) (text : JsString) :
    normalizeForFuzzyMatch nfkc (normalizeForFuzzyMatch nfkc text) = normalizeForFuzzyMatch nfkc text := by
  have hlines : ∀ line ∈ (split newline (nfkc text)).map trimEnd, nfkc line = line := by
    intro line hline
    obtain ⟨l, hl, rfl⟩ := mem_map.1 hline
    have hpart : trimEnd l <:+: nfkc text := by
      have hl' := @Lines.infix_join _ newline _ _ hl
      rw [join_split] at hl'
      exact ( rdropWhile_prefix isSpace l).isInfix.trans hl'
    exact hn.part _ _ (hn.idem text) hpart
  have hfixed : nfkc (normalizeForFuzzyMatch nfkc text) = normalizeForFuzzyMatch nfkc text :=
    hn.asciify _ (nfkc_join hn hlines)
  have hsplit : split newline (normalizeForFuzzyMatch nfkc text) =
      ((split newline (nfkc text)).map trimEnd).map fun line => line.map asciify := by
    rw [normalizeForFuzzyMatch, map_asciify_join, split_join]
    · simpa using split_ne_nil (nfkc text)
    · intro line hline hmem
      obtain ⟨l, hl, rfl⟩ := mem_map.1 hline
      obtain ⟨l', hl', rfl⟩ := mem_map.1 hl
      obtain ⟨u, hu, hnew⟩ := mem_map.1 hmem
      rw [(asciify_newline_iff u).1 hnew] at hu
      exact sep_not_mem_of_mem_split hl' (( rdropWhile_prefix isSpace l').subset hu)
  have htrim : (split newline (normalizeForFuzzyMatch nfkc text)).map trimEnd =
      split newline (normalizeForFuzzyMatch nfkc text) := by
    rw [hsplit]
    refine (map_congr_left fun line hline => ?_).trans (map_id' _)
    obtain ⟨l, hl, rfl⟩ := mem_map.1 hline
    obtain ⟨l', -, rfl⟩ := mem_map.1 hl
    exact trimEnd_map_asciify l'
  rw [normalizeForFuzzyMatch, hfixed, htrim, join_split, normalizeForFuzzyMatch, map_map]
  exact map_congr_left fun u _ => asciify_asciify u

/-! ## When edits are applied -/

/-- The text that is located: the old text, or its normal form. -/
def matchedText (nfkc : JsString → JsString) (base oldText : JsString) : JsString :=
  if (indexOf oldText base).isSome then oldText else normalizeForFuzzyMatch nfkc oldText

/-- The edit is found in the base, and not twice. -/
def Located (nfkc : JsString → JsString) (base : JsString) (edit : Edit) : Prop :=
  (fuzzyFindText nfkc base edit.oldText).found = true ∧ countOccurrences nfkc base edit.oldText ≤ 1

def placeOf (nfkc : JsString → JsString) (base : JsString) (edit : Edit) : Place where
  matchIndex := (fuzzyFindText nfkc base edit.oldText).index.toNat
  matchLength := (fuzzyFindText nfkc base edit.oldText).matchLength
  newText := edit.newText

variable {base : JsString} {edits : List Edit}

variable {total : Nat}

theorem firstEmpty_eq_ok : ∀ {i : Nat} {edits : List Edit},
    firstEmpty total i edits = .ok () ↔ ∀ edit ∈ edits, edit.oldText ≠ [] := by
  intro i edits
  induction edits generalizing i with
  | nil => simp [firstEmpty]
  | cons edit rest ih =>
    rw [firstEmpty]
    split
    · rename_i hempty
      refine iff_of_false (by simp) fun h => ?_
      exact h edit mem_cons_self (length_eq_zero_iff.1 hempty)
    · rename_i hne
      rw [ih, forall_mem_cons]
      exact (and_iff_right fun h => hne (by rw [h]; rfl)).symm

theorem matchEdits_eq_ok : ∀ {i : Nat} {edits : List Edit} {matched : List MatchedEdit},
    matchEdits nfkc base total i edits = .ok matched →
      (∀ edit ∈ edits, Located nfkc base edit) ∧
        matched.map MatchedEdit.toPlace = edits.map (placeOf nfkc base) := by
  intro i edits
  induction edits generalizing i with
  | nil =>
    intro matched h
    cases h
    exact ⟨by simp, rfl⟩
  | cons edit rest ih =>
    intro matched h
    rw [matchEdits] at h
    simp only [] at h
    split at h
    · cases h
    · rename_i hfound
      split at h
      · cases h
      · rename_i hcount
        split at h
        · cases h
        · rename_i matched' hrest
          cases h
          obtain ⟨hall, hmap⟩ := ih hrest
          refine ⟨forall_mem_cons.2 ⟨⟨by simpa using hfound, by omega⟩, hall⟩, ?_⟩
          rw [map_cons, map_cons, hmap]
          rfl

theorem exists_matchEdits : ∀ {i : Nat} {edits : List Edit},
    (∀ edit ∈ edits, Located nfkc base edit) → ∃ matched, matchEdits nfkc base total i edits = .ok matched := by
  intro i edits
  induction edits generalizing i with
  | nil => exact fun _ => ⟨[], rfl⟩
  | cons edit rest ih =>
    intro h
    obtain ⟨hhead, hrest⟩ := forall_mem_cons.1 h
    obtain ⟨matched, hmatched⟩ := ih (i := i + 1) hrest
    rw [matchEdits]
    simp only [hhead.1, Bool.true_eq_false, if_false]
    rw [if_neg (by have hcount := hhead.2; omega), hmatched]
    exact ⟨_, rfl⟩

/-- Neighbours do not overlap. -/
def Apart : List Place → Prop
  | previous :: current :: rest =>
    previous.matchIndex + previous.matchLength ≤ current.matchIndex ∧ Apart (current :: rest)
  | _ => True

theorem checkOverlap_eq_ok : ∀ {matched : List MatchedEdit},
    checkOverlap matched = .ok () ↔ Apart (matched.map MatchedEdit.toPlace)
  | [] => iff_of_true rfl trivial
  | [_] => iff_of_true rfl trivial
  | previous :: current :: rest => by
    rw [checkOverlap, map_cons, map_cons, Apart, ← map_cons, ← checkOverlap_eq_ok]
    split
    · rename_i hlt
      exact iff_of_false (by simp) fun h => by omega
    · rename_i hle
      exact (and_iff_right (by omega)).symm

/-- The places of the edits, from the first to the last. -/
def placeLe (a b : Place) : Bool := decide (a.matchIndex ≤ b.matchIndex)

def sortedPlaces (nfkc : JsString → JsString) (base : JsString) (edits : List Edit) : List Place :=
  (edits.map (placeOf nfkc base)).mergeSort placeLe

def applyPlaces (base : JsString) (places : List Place) : JsString :=
  places.foldr (fun p content =>
    content.take p.matchIndex ++ p.newText ++ content.drop (p.matchIndex + p.matchLength)) base

theorem applyMatches_eq (base : JsString) (matched : List MatchedEdit) :
    applyMatches base matched = applyPlaces base (matched.map MatchedEdit.toPlace) := by
  rw [applyMatches, applyPlaces, foldr_map]

theorem map_mergeSort_byIndex (matched : List MatchedEdit) :
    (matched.mergeSort byIndex).map MatchedEdit.toPlace =
      (matched.map MatchedEdit.toPlace).mergeSort placeLe :=
  map_mergeSort fun _ _ _ _ => rfl

variable {content : JsString}

/-- The edits are applied when all of them are located apart from each other, and change the base. -/
theorem apply_eq_ok {result : AppliedEditsResult} :
    applyEditsToNormalizedContent nfkc content edits = .ok result ↔
      (∀ edit ∈ edits.map normalizeEdit, edit.oldText ≠ []) ∧
      (∀ edit ∈ edits.map normalizeEdit,
        Located nfkc (baseOf nfkc content (edits.map normalizeEdit)) edit) ∧
      Apart (sortedPlaces nfkc (baseOf nfkc content (edits.map normalizeEdit)) (edits.map normalizeEdit)) ∧
      result.baseContent = baseOf nfkc content (edits.map normalizeEdit) ∧
      result.newContent = applyPlaces result.baseContent
        (sortedPlaces nfkc result.baseContent (edits.map normalizeEdit)) ∧
      result.baseContent ≠ result.newContent := by
  rw [applyEditsToNormalizedContent]
  simp only []
  generalize edits.map normalizeEdit = edits
  generalize hbase : baseOf nfkc content edits = base
  cases hempty : firstEmpty edits.length 0 edits with
  | error e =>
    refine iff_of_false (by simp) fun h => ?_
    rw [firstEmpty_eq_ok.2 h.1] at hempty
    cases hempty
  | ok u =>
    have hne := firstEmpty_eq_ok.1 hempty
    cases hmatch : matchEdits nfkc base edits.length 0 edits with
    | error e =>
      refine iff_of_false (by simp) fun h => ?_
      obtain ⟨matched, hmatched⟩ := @exists_matchEdits _ _ edits.length 0 _ h.2.1
      rw [hmatched] at hmatch
      cases hmatch
    | ok matched =>
      obtain ⟨hlocated, hmap⟩ := matchEdits_eq_ok hmatch
      have hsorted : (matched.mergeSort byIndex).map MatchedEdit.toPlace = sortedPlaces nfkc base edits := by
        rw [map_mergeSort_byIndex, hmap, sortedPlaces]
      simp only []
      cases hover : checkOverlap (matched.mergeSort byIndex) with
      | error e =>
        refine iff_of_false (by simp) fun h => ?_
        rw [checkOverlap_eq_ok.2 (by rw [hsorted]; exact h.2.2.1)] at hover
        cases hover
      | ok u =>
        have hapart := checkOverlap_eq_ok.1 hover
        rw [hsorted] at hapart
        simp only []
        rw [applyMatches_eq, hsorted]
        split
        · rename_i hsame
          refine iff_of_false (by simp) fun h => ?_
          obtain ⟨-, -, -, hb, hc, hd⟩ := h
          rw [hc, hb] at hd
          exact hd hsame
        · rename_i hchange
          constructor
          · intro h
            cases h
            exact ⟨hne, hlocated, hapart, rfl, rfl, hchange⟩
          · rintro ⟨-, -, -, hb, hc, -⟩
            obtain ⟨b, c⟩ := result
            simp only [] at hb hc
            rw [hc, hb]

/-! ## Where an edit is -/

variable {edit : Edit}

theorem placeOf_spec
    (hbase : (indexOf edit.oldText base).isSome = true ∨ normalizeForFuzzyMatch nfkc base = base)
    (hfound : (fuzzyFindText nfkc base edit.oldText).found = true) :
    matchedText nfkc base edit.oldText <+: base.drop (placeOf nfkc base edit).matchIndex ∧
      (placeOf nfkc base edit).matchLength = (matchedText nfkc base edit.oldText).length ∧
      (placeOf nfkc base edit).matchIndex + (placeOf nfkc base edit).matchLength ≤ base.length := by
  rw [placeOf, matchedText]
  unfold fuzzyFindText at hfound ⊢
  cases hexact : indexOf edit.oldText base with
  | some i => exact ⟨indexOf_some hexact, rfl, indexOf_le hexact⟩
  | none =>
    rw [hexact] at hbase hfound
    have hfixed : normalizeForFuzzyMatch nfkc base = base := hbase.resolve_left (by simp)
    simp only [hfixed, Option.isSome_none, Bool.false_eq_true, if_false] at hfound ⊢
    cases hfuzzy : indexOf (normalizeForFuzzyMatch nfkc edit.oldText) base with
    | none =>
      rw [hfuzzy] at hfound
      cases hfound
    | some i => exact ⟨indexOf_some hfuzzy, rfl, indexOf_le hfuzzy⟩

variable {content : JsString}

/-- A base in which an edit has to be found by its normal form is a normal form. -/
theorem baseOf_fixed (hn : IsNfkc nfkc) (hmem : edit ∈ edits)
    (hfound : (fuzzyFindText nfkc (baseOf nfkc content edits) edit.oldText).found = true) :
    (indexOf edit.oldText (baseOf nfkc content edits)).isSome = true ∨
      baseOf nfkc content edits = normalizeForFuzzyMatch nfkc content ∧
        normalizeForFuzzyMatch nfkc (baseOf nfkc content edits) = baseOf nfkc content edits := by
  unfold baseOf at hfound ⊢
  split
  · exact .inr ⟨rfl, normalizeForFuzzyMatch_idem hn content⟩
  · rename_i hany
    rw [if_neg hany] at hfound
    rw [Bool.not_eq_true, any_eq_false] at hany
    have hused := hany edit hmem
    unfold fuzzyFindText at hused hfound
    cases hexact : indexOf edit.oldText content with
    | some i => exact .inl rfl
    | none =>
      rw [hexact] at hused hfound
      simp only [] at hused hfound
      cases hfuzzy : indexOf (normalizeForFuzzyMatch nfkc edit.oldText)
          (normalizeForFuzzyMatch nfkc content) with
      | none =>
        rw [hfuzzy] at hfound
        cases hfound
      | some i =>
        rw [hfuzzy] at hused
        exact absurd rfl hused

theorem located_spec (hn : IsNfkc nfkc) (hmem : edit ∈ edits)
    (hloc : Located nfkc (baseOf nfkc content edits) edit) :
    matchedText nfkc (baseOf nfkc content edits) edit.oldText <+:
        (baseOf nfkc content edits).drop (placeOf nfkc (baseOf nfkc content edits) edit).matchIndex ∧
      (placeOf nfkc (baseOf nfkc content edits) edit).matchLength =
        (matchedText nfkc (baseOf nfkc content edits) edit.oldText).length ∧
      (placeOf nfkc (baseOf nfkc content edits) edit).matchIndex +
        (placeOf nfkc (baseOf nfkc content edits) edit).matchLength ≤
          (baseOf nfkc content edits).length := by
  refine placeOf_spec ?_ hloc.1
  obtain h | ⟨-, h⟩ := baseOf_fixed hn hmem hloc.1
  · exact .inl h
  · exact .inr h

theorem blank_of_length_zero (hn : IsNfkc nfkc) (hmem : edit ∈ edits)
    (hne : edit.oldText ≠ []) (hloc : Located nfkc (baseOf nfkc content edits) edit)
    (hzero : (placeOf nfkc (baseOf nfkc content edits) edit).matchLength = 0) :
    normalizeForFuzzyMatch nfkc edit.oldText = [] ∧
      (normalizeForFuzzyMatch nfkc content).length ≤ 2 := by
  obtain ⟨-, hlen, -⟩ := located_spec hn hmem hloc
  rw [hzero, eq_comm, length_eq_zero_iff, matchedText] at hlen
  split at hlen
  · exact absurd hlen hne
  · rename_i hexact
    obtain h | ⟨hbase, hfixed⟩ := baseOf_fixed hn hmem hloc.1
    · exact absurd h hexact
    · have hcount := hloc.2
      rw [countOccurrences, hlen, splitLength, if_pos rfl, hfixed, hbase] at hcount
      exact ⟨hlen, by omega⟩

/-! ## All replacements at once -/

/-- From the first region to the last: the text of each is replaced, what is between them stays. -/
def Simultaneous (nfkc : JsString → JsString) (full : JsString) :
    Nat → JsString → JsString → List Edit → Prop
  | _, base, result, [] => result = base
  | position, base, result, edit :: rest =>
    ∃ gap base' result', base = gap ++ matchedText nfkc full edit.oldText ++ base' ∧
      position + gap.length = (placeOf nfkc full edit).matchIndex ∧
      result = gap ++ edit.newText ++ result' ∧
      Simultaneous nfkc full
        ((placeOf nfkc full edit).matchIndex + (matchedText nfkc full edit.oldText).length)
        base' result' rest

theorem simultaneous_applyPlaces {full : JsString} : ∀ {sorted : List Edit} {position : Nat},
    (∀ edit ∈ sorted, matchedText nfkc full edit.oldText <+: full.drop (placeOf nfkc full edit).matchIndex ∧
      (placeOf nfkc full edit).matchLength = (matchedText nfkc full edit.oldText).length ∧
      (placeOf nfkc full edit).matchIndex + (placeOf nfkc full edit).matchLength ≤ full.length) →
    Apart (sorted.map (placeOf nfkc full)) → position ≤ full.length →
    (∀ edit ∈ sorted.head?, position ≤ (placeOf nfkc full edit).matchIndex) →
    ∃ result, applyPlaces full (sorted.map (placeOf nfkc full)) = full.take position ++ result ∧
      Simultaneous nfkc full position (full.drop position) result sorted := by
  intro sorted
  induction sorted with
  | nil =>
    intro position _ _ _ _
    exact ⟨full.drop position, (take_append_drop _ _).symm, rfl⟩
  | cons edit rest ih =>
    intro position hspec hapart hle hpos
    obtain ⟨⟨t, ht⟩, hlen, hend⟩ := hspec edit mem_cons_self
    have hstart := hpos edit rfl
    have hnext : ∀ edit' ∈ rest.head?, (placeOf nfkc full edit).matchIndex +
        (placeOf nfkc full edit).matchLength ≤ (placeOf nfkc full edit').matchIndex := by
      intro edit' he
      cases rest with
      | nil => cases he
      | cons e rest =>
        cases he
        exact hapart.1
    have hapart' : Apart (rest.map (placeOf nfkc full)) := by
      cases rest with
      | nil => trivial
      | cons e rest => exact hapart.2
    obtain ⟨result', happly, hsim⟩ :=
      ih (fun e he => hspec e (mem_cons_of_mem _ he)) hapart' hend hnext
    have htail : full.drop ((placeOf nfkc full edit).matchIndex + (placeOf nfkc full edit).matchLength) = t := by
      rw [← drop_drop, ← ht, hlen, drop_left]
    have hgap : full.drop position =
        (full.drop position).take ((placeOf nfkc full edit).matchIndex - position) ++
          matchedText nfkc full edit.oldText ++ t := by
      rw [append_assoc, ht]
      conv_lhs => rw [← take_append_drop ((placeOf nfkc full edit).matchIndex - position)
        (full.drop position)]
      rw [drop_drop, Nat.add_sub_cancel' hstart]
    refine ⟨(full.drop position).take ((placeOf nfkc full edit).matchIndex - position) ++ edit.newText ++
      result', ?_, _, t, result', hgap, ?_, rfl, ?_⟩
    · rw [map_cons, applyPlaces, foldr_cons, ← applyPlaces, happly]
      have htake : (full.take ((placeOf nfkc full edit).matchIndex + (placeOf nfkc full edit).matchLength) ++
          result').take (placeOf nfkc full edit).matchIndex =
            full.take (placeOf nfkc full edit).matchIndex := by
        rw [take_append_of_le_length (by rw [length_take]; omega), take_take,
          Nat.min_eq_left (Nat.le_add_right _ _)]
      have hdrop : (full.take ((placeOf nfkc full edit).matchIndex + (placeOf nfkc full edit).matchLength) ++
          result').drop ((placeOf nfkc full edit).matchIndex + (placeOf nfkc full edit).matchLength) =
            result' := by
        rw [drop_append_of_le_length (by rw [length_take]; omega),
          drop_eq_nil_of_le (by rw [length_take]; omega), nil_append]
      have hsplit : full.take (placeOf nfkc full edit).matchIndex =
          full.take position ++
            (full.drop position).take ((placeOf nfkc full edit).matchIndex - position) := by
        rw [← take_add, Nat.add_sub_cancel' hstart]
      rw [htake, hdrop, hsplit]
      simp only [placeOf, append_assoc]
    · rw [length_take, length_drop]
      omega
    · rw [htail, hlen] at hsim
      exact hsim

/-! ## The order of the edits -/

/-- The edits as they are sorted. -/
def sortedEdits (nfkc : JsString → JsString) (base : JsString) (edits : List Edit) : List Edit :=
  edits.mergeSort fun a b => placeLe (placeOf nfkc base a) (placeOf nfkc base b)

theorem map_sortedEdits (base : JsString) (edits : List Edit) :
    (sortedEdits nfkc base edits).map (placeOf nfkc base) = sortedPlaces nfkc base edits :=
  map_mergeSort fun _ _ _ _ => rfl

theorem pairwise_sortedPlaces (base : JsString) (edits : List Edit) :
    (sortedPlaces nfkc base edits).Pairwise fun a b => a.matchIndex ≤ b.matchIndex := by
  have h := @List.pairwise_mergeSort _ placeLe
    (fun a b c hab hbc => decide_eq_true ((of_decide_eq_true hab).trans (of_decide_eq_true hbc)))
    (fun a b => by simpa [placeLe] using Nat.le_total a.matchIndex b.matchIndex)
    (edits.map (placeOf nfkc base))
  exact h.imp of_decide_eq_true

theorem Apart.pairwise_lt : ∀ {places : List Place}, Apart places → (∀ p ∈ places, 0 < p.matchLength) →
    places.Pairwise fun a b => a.matchIndex < b.matchIndex
  | [], _, _ => List.Pairwise.nil
  | [p], _, _ => pairwise_singleton _ p
  | p :: q :: rest, hapart, hpos => by
    have hrest := Apart.pairwise_lt hapart.2 fun r hr => hpos r (mem_cons_of_mem _ hr)
    have hp := hpos p mem_cons_self
    have hpq := hapart.1
    refine pairwise_cons.2 ⟨fun r hr => ?_, hrest⟩
    obtain rfl | hr := mem_cons.1 hr
    · omega
    · have hqr := (pairwise_cons.1 hrest).1 r hr
      omega

variable {edits edits' : List Edit}

theorem sortedPlaces_perm (hperm : edits.Perm edits')
    (hapart : Apart (sortedPlaces nfkc base edits))
    (hpos : ∀ edit ∈ edits, 0 < (placeOf nfkc base edit).matchLength) :
    sortedPlaces nfkc base edits' = sortedPlaces nfkc base edits := by
  have hmem : ∀ p ∈ sortedPlaces nfkc base edits, 0 < p.matchLength := by
    intro p hp
    obtain ⟨edit, he, rfl⟩ := mem_map.1 (mem_mergeSort.1 hp)
    exact hpos edit he
  have hstrict := hapart.pairwise_lt hmem
  have hsame : (sortedPlaces nfkc base edits').Perm (sortedPlaces nfkc base edits) :=
    (mergeSort_perm _ _).trans ((hperm.symm.map _).trans (mergeSort_perm _ _).symm)
  have hdistinct : (sortedPlaces nfkc base edits').Pairwise fun a b => a.matchIndex ≠ b.matchIndex :=
    (hsame.pairwise_iff fun {a b} (h : a.matchIndex ≠ b.matchIndex) => h.symm).2
      (hstrict.imp fun hlt => Nat.ne_of_lt hlt)
  have hstrict' : (sortedPlaces nfkc base edits').Pairwise fun a b => a.matchIndex < b.matchIndex :=
    ((pairwise_sortedPlaces base edits').and hdistinct).imp fun h => Nat.lt_of_le_of_ne h.1 h.2
  exact @List.Perm.eq_of_pairwise _ (fun a b => a.matchIndex < b.matchIndex) _ _
    (fun a b _ _ hab hba => absurd hba (Nat.lt_asymm hab)) hstrict' hstrict hsame

theorem baseOf_perm (hperm : edits.Perm edits') :
    baseOf nfkc content edits' = baseOf nfkc content edits := by
  rw [baseOf, baseOf, hperm.any_eq]

/-- What is applied in one order is applied in every order, when no edit is located in no text. -/
theorem apply_perm (hperm : edits.Perm edits')
    (hpos : ∀ edit ∈ edits.map normalizeEdit, edit.oldText ≠ [] →
      Located nfkc (baseOf nfkc content (edits.map normalizeEdit)) edit →
      0 < (placeOf nfkc (baseOf nfkc content (edits.map normalizeEdit)) edit).matchLength)
    {result : AppliedEditsResult}
    (h : applyEditsToNormalizedContent nfkc content edits = .ok result) :
    applyEditsToNormalizedContent nfkc content edits' = .ok result := by
  have hperm' := hperm.map normalizeEdit
  obtain ⟨hne, hlocated, hapart, hbase, hnew, hchange⟩ := apply_eq_ok.1 h
  have hsorted := sortedPlaces_perm hperm' hapart fun edit he =>
    hpos edit he (hne edit he) (hlocated edit he)
  refine apply_eq_ok.2 ?_
  rw [baseOf_perm hperm', hbase, hsorted]
  rw [hbase] at hnew hchange
  exact ⟨fun edit he => hne edit (hperm'.mem_iff.2 he), fun edit he => hlocated edit (hperm'.mem_iff.2 he),
    hapart, rfl, hnew, hchange⟩

/-- The result is all replacements made at once in the base, which is the content when every old text
is in it as it is. -/
def SubstitutesAll (nfkc : JsString → JsString) (content : JsString) (edits : List Edit) : Prop :=
  ∀ result, applyEditsToNormalizedContent nfkc content edits = .ok result →
    (result.baseContent = content ∨ result.baseContent = normalizeForFuzzyMatch nfkc content) ∧
    ((∀ edit ∈ edits, (indexOf (normalizeToLF edit.oldText) content).isSome = true) →
      result.baseContent = content ∧ ∀ edit ∈ edits, matchedText nfkc result.baseContent
        (normalizeToLF edit.oldText) = normalizeToLF edit.oldText) ∧
    ∃ sorted, sorted.Perm (edits.map normalizeEdit) ∧
      Simultaneous nfkc result.baseContent 0 result.baseContent result.newContent sorted

/-- Every order of the edits has the same outcome. -/
def OrderFree (nfkc : JsString → JsString) (content : JsString) (edits : List Edit) : Prop :=
  ∀ edits', edits.Perm edits' →
    (applyEditsToNormalizedContent nfkc content edits').toOption =
      (applyEditsToNormalizedContent nfkc content edits).toOption

theorem substitutesAll (hn : IsNfkc nfkc) (content : JsString) (edits : List Edit) :
    SubstitutesAll nfkc content edits := by
  intro result h
  obtain ⟨hne, hlocated, hapart, hbase, hnew, -⟩ := apply_eq_ok.1 h
  refine ⟨?_, ?_, sortedEdits nfkc result.baseContent (edits.map normalizeEdit), mergeSort_perm _ _, ?_⟩
  · rw [hbase, baseOf]
    split
    · exact .inr rfl
    · exact .inl rfl
  · intro hexact
    have hcontent : result.baseContent = content := by
      rw [hbase, baseOf, if_neg]
      rw [Bool.not_eq_true, any_eq_false]
      intro edit he
      obtain ⟨e, he', rfl⟩ := mem_map.1 he
      obtain ⟨i, hi⟩ := Option.isSome_iff_exists.1 (hexact e he')
      simp [fuzzyFindText, normalizeEdit, hi]
    refine ⟨hcontent, fun edit he => ?_⟩
    rw [matchedText, hcontent, if_pos (hexact edit he)]
  · rw [← hbase] at hlocated hapart
    have hspec : ∀ edit ∈ sortedEdits nfkc result.baseContent (edits.map normalizeEdit),
        matchedText nfkc result.baseContent edit.oldText <+:
            result.baseContent.drop (placeOf nfkc result.baseContent edit).matchIndex ∧
          (placeOf nfkc result.baseContent edit).matchLength =
            (matchedText nfkc result.baseContent edit.oldText).length ∧
          (placeOf nfkc result.baseContent edit).matchIndex +
            (placeOf nfkc result.baseContent edit).matchLength ≤ result.baseContent.length := by
      intro edit he
      have hmem := mem_mergeSort.1 he
      have hloc := hlocated edit hmem
      rw [hbase] at hloc ⊢
      exact located_spec hn hmem hloc
    rw [← map_sortedEdits] at hapart
    obtain ⟨content', happly, hsim⟩ := simultaneous_applyPlaces hspec hapart (Nat.zero_le _)
      fun _ _ => Nat.zero_le _
    rw [map_sortedEdits, ← hnew, take_zero, nil_append] at happly
    rw [happly]
    exact hsim

theorem orderFree_of (hn : IsNfkc nfkc)
    (h : 2 < (normalizeForFuzzyMatch nfkc content).length ∨
      ∀ edit ∈ edits, normalizeForFuzzyMatch nfkc (normalizeToLF edit.oldText) ≠ []) :
    OrderFree nfkc content edits := by
  have hpos : ∀ {edits' : List Edit}, edits.Perm edits' → ∀ edit ∈ edits'.map normalizeEdit,
      edit.oldText ≠ [] → Located nfkc (baseOf nfkc content (edits'.map normalizeEdit)) edit →
      0 < (placeOf nfkc (baseOf nfkc content (edits'.map normalizeEdit)) edit).matchLength := by
    intro edits' hperm edit he hne hloc
    refine Nat.pos_of_ne_zero fun hzero => ?_
    obtain ⟨hblank, hshort⟩ := blank_of_length_zero hn he hne hloc hzero
    obtain hlong | hnone := h
    · omega
    · obtain ⟨e, he', rfl⟩ := mem_map.1 he
      exact hnone e (hperm.mem_iff.2 he') hblank
  intro edits' hperm
  cases hr : applyEditsToNormalizedContent nfkc content edits with
  | ok result => rw [apply_perm hperm (hpos (List.Perm.refl _)) hr]
  | error e =>
    cases hr' : applyEditsToNormalizedContent nfkc content edits' with
    | error e' => rfl
    | ok result =>
      rw [apply_perm hperm.symm (hpos hperm) hr'] at hr
      cases hr

/-! ### Two edits of blanks -/

def blanks (n : Nat) : JsString := List.replicate n 32

theorem normalizeToLF_blanks : ∀ n, normalizeToLF (blanks n) = blanks n
  | 0 => rfl
  | 1 => rfl
  | n + 2 => by
    rw [blanks, replicate_succ, replicate_succ, normalizeToLF, if_neg (by decide),
      ← replicate_succ, ← blanks, normalizeToLF_blanks (n + 1)]

theorem normalizeForFuzzyMatch_blanks (hn : IsNfkc nfkc) (n : Nat) :
    normalizeForFuzzyMatch nfkc (blanks n) = [] := by
  have hunits : ∀ u ∈ blanks n, u = 32 := fun u hu => (mem_replicate.1 hu).2
  have hascii : nfkc (blanks n) = blanks n := hn.ascii _ fun u hu => by rw [hunits u hu]; decide
  have hline : split newline (blanks n) = [blanks n] := by
    refine split_of_not_mem fun hmem => ?_
    cases hunits _ hmem
  have htrim : trimEnd (blanks n) = [] := by
    rw [trimEnd, rdropWhile_eq_nil_iff]
    intro u hu
    rw [hunits u hu]
    rfl
  rw [normalizeForFuzzyMatch, hascii, hline, map_singleton, htrim, join_singleton, map_nil]

variable {n : Nat}

theorem indexOf_blanks {s : JsString} (h : s.length < n) : indexOf (blanks n) s = none := by
  refine indexOf_eq_none.2 fun hpart => ?_
  have hle := hpart.length_le
  rw [blanks, length_replicate] at hle
  omega

def blankEdit (n : Nat) (newText : JsString) : Edit := { oldText := blanks n, newText }

theorem fuzzyFindText_blanks (hn : IsNfkc nfkc) {s : JsString} (h : s.length < n) :
    fuzzyFindText nfkc s (blanks n) =
      { found := true, index := 0, matchLength := 0, usedFuzzyMatch := true
        contentForReplacement := normalizeForFuzzyMatch nfkc s } := by
  rw [fuzzyFindText, indexOf_blanks h]
  simp only [normalizeForFuzzyMatch_blanks hn, indexOf_nil]
  rfl

/-- Two edits of blanks are both made at the start of a short content, in the order they are given. -/
theorem apply_blankEdits (hn : IsNfkc nfkc)
    (hshort : (normalizeForFuzzyMatch nfkc content).length ≤ 2) {m : Nat} (hm : content.length + 3 ≤ m)
    (hn' : content.length + 3 ≤ n) (u v : UInt16) (hu : u ≠ carriageReturn) (hv : v ≠ carriageReturn) :
    applyEditsToNormalizedContent nfkc content [blankEdit m [u], blankEdit n [v]] =
      .ok { baseContent := normalizeForFuzzyMatch nfkc content
            newContent := u :: v :: normalizeForFuzzyMatch nfkc content } := by
  have hedits : [blankEdit m [u], blankEdit n [v]].map normalizeEdit = [blankEdit m [u], blankEdit n [v]] := by
    simp [normalizeEdit, blankEdit, normalizeToLF_blanks, normalizeToLF, hu, hv]
  have hbase : baseOf nfkc content [blankEdit m [u], blankEdit n [v]] =
      normalizeForFuzzyMatch nfkc content := by
    rw [baseOf, if_pos]
    simp [blankEdit, fuzzyFindText_blanks hn (s := content) (n := m) (by omega)]
  have hplace : ∀ k (w : UInt16), content.length + 3 ≤ k →
      placeOf nfkc (normalizeForFuzzyMatch nfkc content) (blankEdit k [w]) = ⟨0, 0, [w]⟩ := by
    intro k w hk
    rw [placeOf, blankEdit, fuzzyFindText_blanks hn (by omega)]
    rfl
  have hlocated : ∀ k (w : UInt16), content.length + 3 ≤ k →
      Located nfkc (normalizeForFuzzyMatch nfkc content) (blankEdit k [w]) := by
    intro k w hk
    refine ⟨?_, ?_⟩
    · rw [blankEdit, fuzzyFindText_blanks hn (by omega)]
    · rw [blankEdit, countOccurrences, normalizeForFuzzyMatch_blanks hn, normalizeForFuzzyMatch_idem hn,
        splitLength, if_pos rfl]
      omega
  have hsorted : sortedPlaces nfkc (normalizeForFuzzyMatch nfkc content) [blankEdit m [u], blankEdit n [v]] =
      [⟨0, 0, [u]⟩, ⟨0, 0, [v]⟩] := by
    rw [sortedPlaces, map_cons, map_singleton, hplace m u hm, hplace n v hn']
    exact mergeSort_of_pairwise (by simp [placeLe])
  refine apply_eq_ok.2 ?_
  rw [hedits, hbase, hsorted]
  refine ⟨?_, ?_, ?_, rfl, ?_, ?_⟩
  · intro edit he
    simp only [mem_cons, not_mem_nil, or_false] at he
    obtain rfl | rfl := he
    · simp [blankEdit, blanks]
      omega
    · simp [blankEdit, blanks]
      omega
  · intro edit he
    simp only [mem_cons, not_mem_nil, or_false] at he
    obtain rfl | rfl := he
    · exact hlocated m u hm
    · exact hlocated n v hn'
  · exact ⟨Nat.le_refl 0, trivial⟩
  · simp [applyPlaces]
  · intro h
    have hlen : (normalizeForFuzzyMatch nfkc content).length =
        (normalizeForFuzzyMatch nfkc content).length + 2 := congrArg List.length h
    omega

theorem not_orderFree_of_short (hn : IsNfkc nfkc)
    (hshort : (normalizeForFuzzyMatch nfkc content).length ≤ 2) :
    ¬ OrderFree nfkc content
      [blankEdit (content.length + 3) [88], blankEdit (content.length + 4) [89]] := by
  intro h
  have hswap := h [blankEdit (content.length + 4) [89], blankEdit (content.length + 3) [88]]
    (List.Perm.swap _ _ [])
  rw [apply_blankEdits hn hshort (Nat.le_refl _) (by omega) 88 89 (by decide) (by decide),
    apply_blankEdits hn hshort (by omega) (Nat.le_refl _) 89 88 (by decide) (by decide)] at hswap
  simp [Except.toOption] at hswap

end

/-- What is applied is always all replacements at once. The order of the edits matters for no list of edits
exactly when the normal form of the content has more than two units; for the other contents it does not
matter for the lists in which no old text has an empty normal form. -/
theorem applyEdits_order_iff (nfkc : JsString → JsString) (hn : IsNfkc nfkc) (content : JsString) :
    ((∀ edits, SubstitutesAll nfkc content edits ∧ OrderFree nfkc content edits) ↔
        2 < (normalizeForFuzzyMatch nfkc content).length) ∧
      ∀ edits, SubstitutesAll nfkc content edits ∧
        ((∀ edit ∈ edits, normalizeForFuzzyMatch nfkc (normalizeToLF edit.oldText) ≠ []) →
          OrderFree nfkc content edits) := by
  refine ⟨⟨fun h => ?_, fun h edits => ?_⟩, fun edits => ⟨substitutesAll hn content edits, fun h => ?_⟩⟩
  · refine Nat.lt_of_not_le fun hshort => ?_
    exact not_orderFree_of_short hn hshort (h _).2
  · exact ⟨substitutesAll hn content edits, orderFree_of hn (.inl h)⟩
  · exact orderFree_of hn (.inr h)

/-- On texts of ASCII characters `normalize` changes nothing. -/
theorem isNfkc_id : IsNfkc id where
  ascii _ _ := rfl
  idem _ := rfl
  newline _ _ := rfl
  part _ _ _ _ := rfl
  asciify _ _ := rfl

/-- What `normalize` makes of the full-width forms of ASCII characters. -/
def narrow (u : UInt16) : UInt16 := if 0xFF01 ≤ u ∧ u ≤ 0xFF5E then u - 0xFEE0 else u

theorem narrow_of_lt {u : UInt16} (h : u < 0xFF01) : narrow u = u := if_neg fun hwide => absurd hwide.1 (by grind)

theorem narrow_narrow (u : UInt16) : narrow (narrow u) = narrow u := by
  unfold narrow
  split
  · rename_i hwide
    exact if_neg (by grind)
  · rfl

/-- The replacements are ASCII characters. -/
theorem narrow_asciify {u : UInt16} (h : narrow u = u) : narrow (asciify u) = asciify u := by
  unfold asciify
  split_ifs <;> first | exact h | rfl

theorem map_narrow_iff {s : JsString} : s.map narrow = s ↔ ∀ u ∈ s, narrow u = u := by
  have h := map_inj_left (l := s) (f := narrow) (g := id)
  rwa [map_id] at h

theorem isNfkc_narrow : IsNfkc (map narrow) where
  ascii s h := map_narrow_iff.2 fun u hu => narrow_of_lt (UInt16.lt_trans (h u hu) (by decide))
  idem s := by
    rw [map_map]
    exact map_congr_left fun u _ => narrow_narrow u
  newline a b := by
    rw [map_append, map_cons]
    rfl
  part _ _ h ht := map_narrow_iff.2 fun u hu => map_narrow_iff.1 h u (ht.subset hu)
  asciify s h := by
    rw [map_map]
    exact map_congr_left fun u hu => narrow_asciify (map_narrow_iff.1 h u hu)

/-- Three letters, the first of them full-width. -/
theorem applyEdits_order_iff_three : IsNfkc (map narrow) ∧
    (∀ edits, SubstitutesAll (map narrow) [0xFF41, 0x62, 0x63] edits ∧
      OrderFree (map narrow) [0xFF41, 0x62, 0x63] edits) ∧
    normalizeForFuzzyMatch (map narrow) [0xFF41, 0x62, 0x63] = ofAscii "abc" := by
  have hform : normalizeForFuzzyMatch (map narrow) [0xFF41, 0x62, 0x63] = ofAscii "abc" := by decide
  have hlong : 2 < (normalizeForFuzzyMatch (map narrow) [0xFF41, 0x62, 0x63]).length := by
    rw [hform]
    decide
  exact ⟨isNfkc_narrow, (applyEdits_order_iff (map narrow) isNfkc_narrow _).1.2 hlong, hform⟩

/-- Two edits of blanks that `ab` does not have. -/
theorem applyEdits_order_matters : ∃ nfkc, IsNfkc nfkc ∧
    applyEditsToNormalizedContent nfkc (ofAscii "ab")
        [⟨ofAscii "     ", ofAscii "X"⟩, ⟨ofAscii "      ", ofAscii "Y"⟩] =
      .ok { baseContent := ofAscii "ab", newContent := ofAscii "XYab" } ∧
    applyEditsToNormalizedContent nfkc (ofAscii "ab")
        [⟨ofAscii "      ", ofAscii "Y"⟩, ⟨ofAscii "     ", ofAscii "X"⟩] =
      .ok { baseContent := ofAscii "ab", newContent := ofAscii "YXab" } ∧
    ofAscii "XYab" ≠ ofAscii "YXab" := by
  have hshort : (normalizeForFuzzyMatch id (ofAscii "ab")).length ≤ 2 := by decide
  have hXY := apply_blankEdits isNfkc_id hshort (m := 5) (n := 6) (by decide) (by decide) 88 89
    (by decide) (by decide)
  have hYX := apply_blankEdits isNfkc_id hshort (m := 6) (n := 5) (by decide) (by decide) 89 88
    (by decide) (by decide)
  exact ⟨id, isNfkc_id, hXY, hYX, by decide⟩

end Tools
end RePrime
