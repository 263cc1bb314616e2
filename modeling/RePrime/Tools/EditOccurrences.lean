import RePrime.Tools.EditDiff

/-!
# RePrime.Tools.EditOccurrences

Whether the text of an edit that is applied occurs once in the base.

* `two_le_occurrencesFrom`: two occurrences apart from each other are counted.
* `trimLines_append`: a trimmed text has its trimmed parts, one after the other.
* `Unambiguous`: places apart of a text are places apart of its normal form, and those are counted.
* `applyEdits_occurs_once_iff`: when an edit that is applied is at the one place of its text.
-/

namespace RePrime
namespace Tools

open JsText List
open Lines

/-! ## Counting -/

theorem occurrencesFrom_append {t : JsString} : ∀ {front : JsString} {skip : Nat} (s : JsString), front.length ≤ skip →
    occurrencesFrom t skip (front ++ s) = occurrencesFrom t (skip - front.length) s := by
  intro front
  induction front with
  | nil => exact fun s _ => rfl
  | cons u front ih =>
    intro skip s hskip
    rw [length_cons] at hskip
    obtain ⟨skip, rfl⟩ := Nat.exists_eq_add_of_le' (Nat.one_le_of_lt hskip)
    rw [cons_append, occurrencesFrom, ih s (by omega), length_cons, Nat.add_sub_add_right]

theorem one_le_occurrencesFrom {t : JsString} (ht : t ≠ []) {a b : JsString} :
    1 ≤ occurrencesFrom t 0 (a ++ (t ++ b)) := by
  induction a with
  | nil =>
    obtain ⟨u, s, hs⟩ := exists_cons_of_ne_nil ht
    have hpre : t <+: u :: (s ++ b) := ⟨b, by rw [hs]; rfl⟩
    rw [nil_append, hs, cons_append, occurrencesFrom, ← hs, if_pos hpre]
    exact Nat.le_add_left _ _
  | cons u a ih =>
    rw [cons_append, occurrencesFrom]
    split
    · exact Nat.le_add_left _ _
    · exact ih

theorem two_le_occurrencesFrom {t : JsString} (ht : t ≠ []) {a b c : JsString} :
    2 ≤ occurrencesFrom t 0 (a ++ (t ++ (b ++ (t ++ c)))) := by
  have hpos := length_pos_of_ne_nil ht
  -- The second occurrence is left after the units of a match.
  have hrest : ∀ front back : JsString, front.length = t.length - 1 →
      1 ≤ occurrencesFrom t (t.length - 1) (front ++ (back ++ (b ++ (t ++ c)))) := by
    intro front back hlen
    rw [occurrencesFrom_append _ hlen.le, hlen, Nat.sub_self, ← append_assoc]
    exact one_le_occurrencesFrom ht
  induction a with
  | nil =>
    obtain ⟨u, s, rfl⟩ := exists_cons_of_ne_nil ht
    have hpre : u :: s <+: u :: (s ++ (b ++ (u :: s ++ c))) := ⟨b ++ (u :: s ++ c), rfl⟩
    have hone := hrest s [] rfl
    rw [nil_append, cons_append, occurrencesFrom, if_pos hpre]
    exact Nat.add_le_add_right hone 1
  | cons u a ih =>
    rw [cons_append, occurrencesFrom]
    split
    · have hone := hrest ((a ++ t).take (t.length - 1)) ((a ++ t).drop (t.length - 1))
        (by rw [length_take, length_append]; omega)
      rw [← append_assoc, take_append_drop, append_assoc] at hone
      exact Nat.add_le_add_right hone 1
    · exact ih

/-! ## Lines without blanks at their ends -/

/-- A blank is kept when something follows it on its line. -/
def trimStep (u : UInt16) (after : JsString) : JsString :=
  if isSpace u ∧ u ≠ newline ∧ (after = [] ∨ after.head? = some newline) then after else u :: after

def trimLines (s : JsString) : JsString := s.foldr trimStep []

theorem trimEnd_cons (u : UInt16) (line : JsString) :
    trimEnd (u :: line) = if trimEnd line = [] ∧ isSpace u then [] else u :: trimEnd line := by
  simp only [trimEnd, List.rdropWhile, reverse_cons, dropWhile_append, reverse_eq_nil_iff, List.isEmpty_iff]
  split
  · rename_i hnil
    cases hspace : isSpace u <;> simp [hnil, hspace, List.dropWhile]
  · rename_i hne
    rw [if_neg fun h => hne h.1, reverse_append]
    rfl

theorem split_cons {u : UInt16} {s line : JsString} {rest : List JsString} (hsplit : split newline s = line :: rest) :
    split newline (u :: s) = if u = newline then [] :: line :: rest else (u :: line) :: rest := by
  have hjoin := @Lines.join_split _ _ newline s
  have hparts : ∀ part ∈ line :: rest, newline ∉ part := fun part hpart =>
    sep_not_mem_of_mem_split (hsplit ▸ hpart)
  rw [hsplit] at hjoin
  split
  · rename_i hu
    rw [hu]
    exact (split_append_sep [] s).trans (by rw [hsplit]; rfl)
  · rename_i hu
    have hcons : u :: s = join newline ((u :: line) :: rest) := by
      rw [← hjoin]
      cases rest with
      | nil => rw [join_singleton, join_singleton]
      | cons next rest =>
        rw [join_cons line (cons_ne_nil next rest), join_cons (u :: line) (cons_ne_nil next rest),
          cons_append]
    rw [hcons, split_join (by simp)]
    rintro part (_ | ⟨_, hpart⟩)
    · exact fun h => (mem_cons.1 h).elim (fun h => hu h.symm) (hparts line mem_cons_self)
    · exact hparts part (mem_cons_of_mem _ hpart)

theorem join_eq_append (rest : List JsString) : ∃ tail : JsString, (tail = [] ∨ tail.head? = some newline) ∧
    ∀ line, join newline (line :: rest) = line ++ tail := by
  by_cases hnil : rest = []
  · exact ⟨[], .inl rfl, fun line => by rw [hnil, join_singleton, append_nil]⟩
  · exact ⟨newline :: join newline rest, .inr rfl, fun line => join_cons line hnil⟩

theorem join_trimEnd (s : JsString) : join newline ((split newline s).map trimEnd) = trimLines s := by
  induction s with
  | nil => rfl
  | cons u s ih =>
    obtain ⟨line, rest, hsplit⟩ := exists_cons_of_ne_nil (@Lines.split_ne_nil _ _ newline s)
    have hstep : trimLines (u :: s) = trimStep u (trimLines s) := rfl
    rw [hstep, split_cons hsplit, ← ih, hsplit, trimStep]
    split
    · rename_i hu
      rw [if_neg fun h => h.2.1 hu, map_cons, join_cons _ (by simp), hu]
      rfl
    · rename_i hu
      obtain ⟨tail, htail, happend⟩ := join_eq_append (rest.map trimEnd)
      have hhead : (trimEnd line ++ tail = [] ∨ (trimEnd line ++ tail).head? = some newline) ↔ trimEnd line = [] := by
        constructor
        · rintro (hnil | hnew)
          · exact (append_eq_nil_iff.1 hnil).1
          · by_contra hne
            rw [head?_append_of_ne_nil _ hne] at hnew
            have hmem : newline ∈ line := ( rdropWhile_prefix isSpace line).subset (mem_of_head? hnew)
            exact sep_not_mem_of_mem_split (hsplit ▸ mem_cons_self) hmem
        · intro hnil
          rwa [hnil]
      rw [map_cons, map_cons, happend, happend, trimEnd_cons]
      simp only [hhead]
      by_cases hspace : isSpace u = true
      · by_cases hnil : trimEnd line = []
        · rw [if_pos ⟨hnil, hspace⟩, if_pos ⟨hspace, hu, hnil⟩, hnil]
        · rw [if_neg fun h => hnil h.1, if_neg fun h => hnil h.2.2, cons_append]
      · rw [if_neg fun h => hspace h.2, if_neg fun h => hspace h.1, cons_append]

theorem trimLines_append (a b : JsString) : ∃ c, trimLines (a ++ b) = trimLines a ++ (c ++ trimLines b) := by
  induction a with
  | nil => exact ⟨[], rfl⟩
  | cons u a ih =>
    obtain ⟨c, hc⟩ := ih
    have hstep : trimLines (u :: a ++ b) = trimStep u (trimLines (a ++ b)) := rfl
    have hstep' : trimLines (u :: a) = trimStep u (trimLines a) := rfl
    rw [hstep, hstep', hc, trimStep, trimStep]
    cases trimLines a with
    | cons v after =>
      refine ⟨c, ?_⟩
      simp only [cons_append, reduceCtorEq, head?_cons, false_or]
      split <;> rfl
    | nil =>
      by_cases hblank : isSpace u = true ∧ u ≠ newline
      · have hnone : trimStep u [] = [] := if_pos ⟨hblank.1, hblank.2, .inl rfl⟩
        rw [← trimStep, ← trimStep, hnone, trimStep]
        split
        · exact ⟨c, rfl⟩
        · exact ⟨u :: c, rfl⟩
      · rw [if_neg fun h => hblank ⟨h.1, h.2.1⟩, if_neg fun h => hblank ⟨h.1, h.2.1⟩]
        exact ⟨c, rfl⟩

section

variable {nfkc : JsString → JsString}

theorem normalizeForFuzzyMatch_eq (text : JsString) :
    normalizeForFuzzyMatch nfkc text = (trimLines (nfkc text)).map asciify := by
  rw [normalizeForFuzzyMatch, join_trimEnd]

/-! ## One place -/

/-- The text is at one place of the base. -/
def OccursOnce (text base : JsString) : Prop :=
  ∃ i, i ≤ base.length ∧ text <+: base.drop i ∧ ∀ j, j ≤ base.length → text <+: base.drop j → j = i

/-- The text is at two places of the base that are apart from each other. -/
def Recurs (text base : JsString) : Prop :=
  ∃ i j, i < j ∧ i + text.length ≤ j ∧ j ≤ base.length ∧ text <+: base.drop i ∧ text <+: base.drop j

/-- What has to be so for the one match that was counted to be the only one. -/
structure Unambiguous (nfkc : JsString → JsString) (base oldText : JsString) : Prop where
  /-- The text that is located is nowhere in the base with its own beginning on top of its end. -/
  overlap : ∀ i j, j ≤ base.length → i < j → j < i + (matchedText nfkc base oldText).length →
    ¬ (matchedText nfkc base oldText <+: base.drop i ∧ matchedText nfkc base oldText <+: base.drop j)
  /-- A text that comes again does so in the normal forms, where the count is made. -/
  counted : Recurs (matchedText nfkc base oldText) base → normalizeForFuzzyMatch nfkc oldText ≠ [] ∧
    Recurs (normalizeForFuzzyMatch nfkc oldText) (normalizeForFuzzyMatch nfkc base)

theorem exists_parts {text base : JsString} {i j : Nat} (hj : i + text.length ≤ j) (hi' : text <+: base.drop i)
    (hj' : text <+: base.drop j) : ∃ a b c, base = a ++ (text ++ (b ++ (text ++ c))) := by
  obtain ⟨c, hc⟩ := hj'
  obtain ⟨rest, hrest⟩ := hi'
  refine ⟨base.take i, rest.take (j - (i + text.length)), c, ?_⟩
  have hdrop : rest.drop (j - (i + text.length)) = text ++ c := by
    have hsum : i + (text.length + (j - (i + text.length))) = j := by omega
    rw [hc, ← hsum, ← drop_drop, ← hrest, drop_length_add_append, hsum]
  rw [← hdrop, take_append_drop, hrest, take_append_drop]

theorem Recurs.of_parts {text a b c : JsString} (h : text ≠ []) : Recurs text (a ++ (text ++ (b ++ (text ++ c)))) := by
  have hpos := length_pos_of_ne_nil h
  refine ⟨a.length, a.length + (text.length + b.length), by omega, by omega, ?_, ?_, ?_⟩
  · simp only [length_append]
    omega
  · rw [drop_left]
    exact prefix_append _ _
  · rw [drop_append, Nat.add_sub_cancel_left, drop_eq_nil_of_le (Nat.le_add_right _ _), nil_append, drop_append,
      Nat.add_sub_cancel_left, drop_eq_nil_of_le (Nat.le_add_right _ _), nil_append, drop_left]
    exact prefix_append _ _

/-- What comes again in the normal forms is counted twice. -/
theorem Recurs.counted {base oldText : JsString} (hne : normalizeForFuzzyMatch nfkc oldText ≠ [])
    (h : Recurs (normalizeForFuzzyMatch nfkc oldText) (normalizeForFuzzyMatch nfkc base)) :
    1 < countOccurrences nfkc base oldText := by
  obtain ⟨i, j, -, hapart, -, hi', hj'⟩ := h
  obtain ⟨a, b, c, hparts⟩ := exists_parts hapart hi' hj'
  rw [countOccurrences, splitLength, if_neg hne, hparts]
  exact_mod_cast two_le_occurrencesFrom hne

/-- In a base that `normalize` leaves as it is, the normal forms show what comes again. -/
theorem Recurs.normal (hn : IsNfkc nfkc) {base oldText : JsString} (hne : normalizeForFuzzyMatch nfkc oldText ≠ [])
    (hbase : nfkc base = base)
    (hmatch : (indexOf oldText base).isSome = true ∨ normalizeForFuzzyMatch nfkc base = base)
    (h : Recurs (matchedText nfkc base oldText) base) :
    Recurs (normalizeForFuzzyMatch nfkc oldText) (normalizeForFuzzyMatch nfkc base) := by
  by_cases hexact : (indexOf oldText base).isSome = true
  · obtain ⟨i, j, -, hapart, -, hi', hj'⟩ := h
    obtain ⟨a, b, c, hparts⟩ := exists_parts hapart hi' hj'
    rw [matchedText, if_pos hexact] at hparts
    have hold : nfkc oldText = oldText := hn.part base _ hbase ⟨a, b ++ (oldText ++ c), by rw [hparts]; simp⟩
    obtain ⟨a', ha⟩ := trimLines_append a (oldText ++ (b ++ (oldText ++ c)))
    obtain ⟨b', hb⟩ := trimLines_append oldText (b ++ (oldText ++ c))
    obtain ⟨b'', hb'⟩ := trimLines_append b (oldText ++ c)
    obtain ⟨c', hc⟩ := trimLines_append oldText c
    have hform : normalizeForFuzzyMatch nfkc base = (trimLines a ++ a').map asciify ++
        (normalizeForFuzzyMatch nfkc oldText ++ ((b' ++ (trimLines b ++ b'')).map asciify ++
          (normalizeForFuzzyMatch nfkc oldText ++ (c' ++ trimLines c).map asciify))) := by
      rw [normalizeForFuzzyMatch_eq, normalizeForFuzzyMatch_eq, hbase, hold, hparts, ha, hb, hb', hc]
      simp only [map_append, append_assoc]
    rw [hform]
    exact Recurs.of_parts hne
  · rw [matchedText, if_neg hexact] at h
    rwa [hmatch.resolve_left hexact]

/-- There the one thing to ask is that the text does not overlap itself. -/
theorem Located.unambiguous (hn : IsNfkc nfkc) {content : JsString} {edits : List Edit} {edit : Edit}
    (hmem : edit ∈ edits) (hloc : Located nfkc (baseOf nfkc content edits) edit)
    (hne : normalizeForFuzzyMatch nfkc edit.oldText ≠ [])
    (hbase : nfkc (baseOf nfkc content edits) = baseOf nfkc content edits)
    (hoverlap : ∀ i j, j ≤ (baseOf nfkc content edits).length → i < j →
      j < i + (matchedText nfkc (baseOf nfkc content edits) edit.oldText).length →
        ¬ (matchedText nfkc (baseOf nfkc content edits) edit.oldText <+: (baseOf nfkc content edits).drop i ∧
          matchedText nfkc (baseOf nfkc content edits) edit.oldText <+: (baseOf nfkc content edits).drop j)) :
    Unambiguous nfkc (baseOf nfkc content edits) edit.oldText :=
  ⟨hoverlap, fun h => ⟨hne, h.normal hn hne hbase ((baseOf_fixed hn hmem hloc.1).imp_right And.right)⟩⟩

theorem occursOnce_iff (hn : IsNfkc nfkc) {content : JsString} {edits : List Edit} {edit : Edit} (hmem : edit ∈ edits)
    (hloc : Located nfkc (baseOf nfkc content edits) edit) :
    OccursOnce (matchedText nfkc (baseOf nfkc content edits) edit.oldText) (baseOf nfkc content edits) ↔
      Unambiguous nfkc (baseOf nfkc content edits) edit.oldText := by
  obtain ⟨hfound, hlength, hle⟩ := located_spec hn hmem hloc
  generalize baseOf nfkc content edits = base at *
  constructor
  · rintro ⟨i, -, -, honly⟩
    have hsame : ∀ p q, q ≤ base.length → p < q → ¬ (matchedText nfkc base edit.oldText <+: base.drop p ∧
        matchedText nfkc base edit.oldText <+: base.drop q) := fun p q hq hlt ⟨hp', hq'⟩ =>
      absurd ((honly p (hlt.le.trans hq) hp').trans (honly q hq hq').symm) hlt.ne
    refine ⟨fun p q hq hlt _ => hsame p q hq hlt, ?_⟩
    rintro ⟨p, q, hlt, -, hq, hboth⟩
    exact absurd hboth (hsame p q hq hlt)
  · intro h
    have hone : ∀ p q, q ≤ base.length → p < q → matchedText nfkc base edit.oldText <+: base.drop p →
        ¬ matchedText nfkc base edit.oldText <+: base.drop q := by
      intro p q hq hlt hp' hq'
      by_cases hapart : q < p + (matchedText nfkc base edit.oldText).length
      · exact h.overlap p q hq hlt hapart ⟨hp', hq'⟩
      obtain ⟨hne, hrecurs⟩ := h.counted ⟨p, q, hlt, Nat.not_lt.1 hapart, hq, hp', hq'⟩
      exact absurd (hrecurs.counted hne) (not_lt.2 hloc.2)
    have hin : (placeOf nfkc base edit).matchIndex ≤ base.length := (Nat.le_add_right _ _).trans hle
    refine ⟨(placeOf nfkc base edit).matchIndex, hin, hfound, fun j hj hj' => ?_⟩
    obtain hlt | heq | hgt := lt_trichotomy j (placeOf nfkc base edit).matchIndex
    · exact absurd hfound (hone _ _ hin hlt hj')
    · exact heq
    · exact absurd hj' (hone _ _ hj hgt hfound)

end

/-- When edits are applied, each text that is located is at one place of the base exactly if it does not overlap
itself there, and comes again in the normal forms if it does in the base. -/
theorem applyEdits_occurs_once_iff {nfkc : JsString → JsString} (hn : IsNfkc nfkc) {content : JsString}
    {edits : List Edit} {result : AppliedEditsResult}
    (h : applyEditsToNormalizedContent nfkc content edits = .ok result) : (∀ edit ∈ edits.map normalizeEdit,
      OccursOnce (matchedText nfkc (baseOf nfkc content (edits.map normalizeEdit)) edit.oldText)
        (baseOf nfkc content (edits.map normalizeEdit))) ↔ ∀ edit ∈ edits.map normalizeEdit,
      Unambiguous nfkc (baseOf nfkc content (edits.map normalizeEdit)) edit.oldText :=
  forall₂_congr fun edit hmem => occursOnce_iff hn hmem ((apply_eq_ok.1 h).2.1 edit hmem)

theorem apply_singleton {content : JsString} {edit : Edit} (hedit : normalizeEdit edit = edit) (hne : edit.oldText ≠ [])
    (hbase : baseOf id content [edit] = content) (hloc : Located id content edit)
    (hchange : content ≠ applyPlaces content [placeOf id content edit]) :
    applyEditsToNormalizedContent id content [edit] =
      .ok { baseContent := content, newContent := applyPlaces content [placeOf id content edit] } := by
  have hplaces : sortedPlaces id content [edit] = [placeOf id content edit] := mergeSort_singleton _
  rw [apply_eq_ok, map_singleton, hedit, hbase, hplaces]
  exact ⟨forall_mem_singleton.2 hne, forall_mem_singleton.2 hloc, trivial, rfl, rfl, hchange⟩

/-- The text `b` is at one place of `ab`: one unit long, it cannot overlap itself. -/
theorem applyEdits_occurs_once_iff_ab :
    OccursOnce (matchedText id (baseOf id (ofAscii "ab") [⟨ofAscii "b", ofAscii "c"⟩]) (ofAscii "b"))
      (baseOf id (ofAscii "ab") [⟨ofAscii "b", ofAscii "c"⟩]) := by
  have hloc : Located id (ofAscii "ab") ⟨ofAscii "b", ofAscii "c"⟩ := ⟨by decide, by decide⟩
  refine (applyEdits_occurs_once_iff isNfkc_id
    (apply_singleton rfl (by decide) (by decide) hloc (by decide))).mpr ?_
      ⟨ofAscii "b", ofAscii "c"⟩ mem_cons_self
  intro edit hedit
  rw [mem_singleton.1 hedit]
  refine Located.unambiguous isNfkc_id mem_cons_self hloc (by decide) rfl fun i j _ hlt hover => ?_
  have hlen : (matchedText id (baseOf id (ofAscii "ab") [⟨ofAscii "b", ofAscii "c"⟩]) (ofAscii "b")).length = 1 := by
    decide
  have hone : j < i + 1 := hlen ▸ hover
  omega

/-- The text `aa` is at two places of `aaa`, and it is replaced. -/
theorem applyEdits_overlapping : applyEditsToNormalizedContent id (ofAscii "aaa") [⟨ofAscii "aa", ofAscii "b"⟩] =
      .ok { baseContent := ofAscii "aaa", newContent := ofAscii "ba" } ∧
    ¬ OccursOnce (matchedText id (ofAscii "aaa") (ofAscii "aa")) (ofAscii "aaa") := by
  refine ⟨apply_singleton rfl (by decide) (by decide) ⟨by decide, by decide⟩ (by decide), ?_⟩
  rintro ⟨i, -, -, honly⟩
  exact absurd ((honly 0 (by decide) (by decide)).trans (honly 1 (by decide) (by decide)).symm) (by decide)

end Tools
end RePrime
