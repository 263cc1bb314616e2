import RePrime.Lib.JsonText

/-!
# RePrime.Ai.JsonRepair

`repairJson` (`json-parse.ts`): control characters and stray backslashes in the string literals of a text escaped.

* `repairFrom`: the scanner. `literalsOk`: what it is to deliver.
* `unicodeOk`: the texts it delivers it for: after `\u` in a literal come four hex digits.
* `repaired_iff`: exactly on these texts the literals come out right and the text parses, if only its literals
  kept it from parsing.
* `repairJson_repaired`: a second repair changes nothing, whatever the text.
-/

namespace RePrime
namespace Ai

open List
open JsText (ofAscii)
open JsonText

/-! ### The scanner -/

/-- `copy k`: `k` more units belong to an escape. -/
inductive Scan where
  | outside
  | inside
  | copy (k : Nat)

def Scan.next : Nat → Scan
  | 0 => .inside
  | 1 => .inside
  | k + 1 => .copy k

def hexPrefix : Nat → JsString → Bool
  | 0, _ => true
  | _ + 1, [] => false
  | n + 1, c :: s => isHex c && hexPrefix n s

/-- A valid escape after a backslash: the units it has. -/
def escapeLength : JsString → Option Nat
  | [] => none
  | c :: s => if c = 0x75 then (if hexPrefix 4 s then some 5 else none) else if isSimpleEscape c then some 1 else none

/-- An escape the scanner keeps. `VALID_JSON_ESCAPES` has `u`, also where no four hex digits follow. -/
def keptLength (s : JsString) : Option Nat :=
  match escapeLength s with
  | some k => some k
  | none => if s.head? = some 0x75 then some 1 else none

def hexDigit (n : Nat) : UInt16 := UInt16.ofNat (if n < 10 then 0x30 + n else 0x57 + n)

def escapeControlCharacter (c : UInt16) : JsString :=
  if c = 8 then [backslash, 0x62]
  else if c = 12 then [backslash, 0x66]
  else if c = 10 then [backslash, 0x6e]
  else if c = 13 then [backslash, 0x72]
  else if c = 9 then [backslash, 0x74]
  else
    [backslash, 0x75, hexDigit (c.toNat / 4096 % 16), hexDigit (c.toNat / 256 % 16), hexDigit (c.toNat / 16 % 16),
      hexDigit (c.toNat % 16)]

def repairFrom : Scan → JsString → JsString
  | _, [] => []
  | .outside, c :: s => c :: repairFrom (if c = quote then .inside else .outside) s
  | .inside, c :: s =>
    if c = quote then c :: repairFrom .outside s
    else if c = backslash then
      match keptLength s with
      | some k => backslash :: repairFrom (.copy k) s
      | none => backslash :: backslash :: repairFrom .inside s
    else (if isControl c then escapeControlCharacter c else [c]) ++ repairFrom .inside s
  | .copy k, c :: s => c :: repairFrom (.next k) s

def repairJson (json : JsString) : JsString := repairFrom .outside json

/-- `parseJsonWithRepair`, for a parser that throws where it gives none. -/
def parseJsonWithRepair {α : Type} (parse : JsString → Option α) (json : JsString) : Option α :=
  match parse json with
  | some value => some value
  | none => if repairJson json ≠ json then parse (repairJson json) else none

/-! ### What it is to deliver -/

/-- In every literal each backslash starts a valid escape and there is no control character. -/
def literalsOk : Scan → JsString → Bool
  | _, [] => true
  | .outside, c :: s => literalsOk (if c = quote then .inside else .outside) s
  | .inside, c :: s =>
    if c = quote then literalsOk .outside s
    else if c = backslash then
      match escapeLength s with
      | some k => literalsOk (.copy k) s
      | none => false
    else !isControl c && literalsOk .inside s
  | .copy k, _ :: s => literalsOk (.next k) s

/-- A literal in which control characters and stray backslashes may stand; a backslash still protects what follows. -/
inductive Loose : JsString → Prop
  | nil : Loose []
  | plain {c : UInt16} {s : JsString} : c ≠ quote → c ≠ backslash → Loose s → Loose (c :: s)
  | pair {c : UInt16} {s : JsString} : Loose s → Loose (backslash :: c :: s)

/-- A text that is JSON but for control characters and stray backslashes in its literals. -/
def LooseJson (s : JsString) : Prop := Text Loose .text s

structure Repaired (json : JsString) : Prop where
  literals : literalsOk .outside (repairJson json) = true
  parses : LooseJson json → Json (repairJson json)
  unchanged : Json json → repairJson json = json

/-- In every literal four hex digits follow a `\u`. -/
def unicodeOk : Scan → JsString → Bool
  | _, [] => true
  | .outside, c :: s => unicodeOk (if c = quote then .inside else .outside) s
  | .inside, c :: s =>
    if c = quote then unicodeOk .outside s
    else if c = backslash then
      match escapeLength s with
      | some k => unicodeOk (.copy k) s
      | none => s.head? != some 0x75 && unicodeOk .inside s
    else unicodeOk .inside s
  | .copy k, _ :: s => unicodeOk (.next k) s

/-! ### Escapes -/

variable {c : UInt16}

theorem isHex_plain (h : isHex c = true) : c ≠ quote ∧ c ≠ backslash ∧ isControl c = false := by
  refine ⟨?_, ?_, ?_⟩
  · rintro rfl
    exact absurd h (by decide)
  · rintro rfl
    exact absurd h (by decide)
  · rw [isControl, decide_eq_false_iff_not]
    intro hle
    have hnum := UInt16.le_iff_toNat_le.mp hle
    simp only [isHex, isDigit, Bool.or_eq_true, Bool.and_eq_true, decide_eq_true_eq, UInt16.le_iff_toNat_le] at h
    simp only [UInt16.reduceToNat] at h hnum
    omega

variable {s : JsString} {k : Nat}

theorem keptLength_eq (h : escapeLength s = some k) : keptLength s = some k := by
  rw [keptLength, h]

theorem keptLength_none (h : escapeLength s = none) (hu : s.head? ≠ some 0x75) : keptLength s = none := by
  rw [keptLength, h]
  exact if_neg hu

theorem keptLength_u (h : escapeLength s = none) (hu : s.head? = some 0x75) : keptLength s = some 1 := by
  rw [keptLength, h]
  exact if_pos hu

theorem hexPrefix_repair (n : Nat) (s : JsString) : hexPrefix n (repairFrom .inside s) = hexPrefix n s := by
  induction n generalizing s with
  | zero => rfl
  | succ n ih =>
    cases s with
    | nil => rfl
    | cons c s =>
      by_cases hc : isHex c = true
      · obtain ⟨hq, hb, hctl⟩ := isHex_plain hc
        rw [repairFrom, if_neg hq, if_neg hb, hctl]
        change (isHex c && hexPrefix n (repairFrom .inside s)) = _
        rw [ih]
        rfl
      · have hfalse : ∀ d t, isHex d = false → hexPrefix (n + 1) (d :: t) = false := by
          intro d t hd
          rw [hexPrefix, hd]
          rfl
        rw [hfalse c s (Bool.eq_false_iff.mpr hc), repairFrom]
        split
        · rename_i hq
          rw [hq]
          exact hfalse _ _ (by decide)
        · split
          · split
            · exact hfalse _ _ (by decide)
            · exact hfalse _ _ (by decide)
          · split
            · have hhead : ∃ t, escapeControlCharacter c = backslash :: t := by
                rw [escapeControlCharacter]
                split_ifs <;> exact ⟨_, rfl⟩
              obtain ⟨t, ht⟩ := hhead
              rw [ht]
              exact hfalse _ _ (by decide)
            · exact hfalse _ _ (Bool.eq_false_iff.mpr hc)

theorem repairFrom_copy_one (c : UInt16) (s : JsString) :
    repairFrom (.copy 1) (c :: s) = c :: repairFrom .inside s := rfl

theorem repairFrom_copy_five (u a b c d : UInt16) (s : JsString) :
    repairFrom (.copy 5) (u :: a :: b :: c :: d :: s) = u :: a :: b :: c :: d :: repairFrom .inside s := rfl

theorem hexPrefix_four (h : hexPrefix 4 s = true) :
    ∃ a b c d t, s = a :: b :: c :: d :: t ∧ isHex a = true ∧ isHex b = true ∧ isHex c = true ∧ isHex d = true := by
  match s with
  | [] => simp [hexPrefix] at h
  | [_] => simp [hexPrefix] at h
  | [_, _] => simp [hexPrefix] at h
  | [_, _, _] => simp [hexPrefix] at h
  | a :: b :: c :: d :: t =>
    simp only [hexPrefix, Bool.and_true, Bool.and_eq_true] at h
    exact ⟨a, b, c, d, t, rfl, h.1, h.2.1, h.2.2.1, h.2.2.2⟩

/-- A valid escape: one of the simple ones, or `u` and four hex digits. -/
theorem escapeLength_cases (h : escapeLength s = some k) : (k = 1 ∧ ∃ c t, s = c :: t ∧ isSimpleEscape c = true) ∨
      (k = 5 ∧ ∃ a b c d t, s = 0x75 :: a :: b :: c :: d :: t ∧ isHex a = true ∧ isHex b = true ∧ isHex c = true ∧
        isHex d = true) := by
  cases s with
  | nil => cases h
  | cons c t =>
    rw [escapeLength] at h
    split at h
    · rename_i hc
      split at h
      · rename_i hhex
        cases h
        obtain ⟨a, b, c', d, t', rfl, hall⟩ := hexPrefix_four hhex
        exact Or.inr ⟨rfl, a, b, c', d, t', by rw [hc], hall⟩
      · cases h
    · split at h
      · rename_i hsimple
        cases h
        exact Or.inl ⟨rfl, c, t, rfl, hsimple⟩
      · cases h

theorem escapeLength_simple (h : isSimpleEscape c = true) (s : JsString) : escapeLength (c :: s) = some 1 := by
  have hu : c ≠ 0x75 := by
    rintro rfl
    exact absurd h (by decide)
  rw [escapeLength, if_neg hu, if_pos h]

theorem escapeLength_unicode {a b d : UInt16} (ha : isHex a = true) (hb : isHex b = true) (hc : isHex c = true)
    (hd : isHex d = true) (s : JsString) : escapeLength (0x75 :: a :: b :: c :: d :: s) = some 5 := by
  rw [escapeLength, if_pos rfl, if_pos]
  simp [hexPrefix, ha, hb, hc, hd]

theorem isHex_hexDigit {n : Nat} (h : n < 16) : isHex (hexDigit n) = true := by
  have hall : ∀ n < 16, isHex (hexDigit n) = true := by decide
  exact hall n h

theorem escapeControl_cases (c : UInt16) :
    (∃ e, escapeControlCharacter c = [backslash, e] ∧ isSimpleEscape e = true) ∨
      ∃ a b d e, escapeControlCharacter c = [backslash, 0x75, a, b, d, e] ∧ isHex a = true ∧ isHex b = true ∧
        isHex d = true ∧ isHex e = true := by
  rw [escapeControlCharacter]
  split
  · exact Or.inl ⟨_, rfl, by decide⟩
  · split
    · exact Or.inl ⟨_, rfl, by decide⟩
    · split
      · exact Or.inl ⟨_, rfl, by decide⟩
      · split
        · exact Or.inl ⟨_, rfl, by decide⟩
        · split
          · exact Or.inl ⟨_, rfl, by decide⟩
          · have hdigit : ∀ n, isHex (hexDigit (n % 16)) = true := fun n => isHex_hexDigit (Nat.mod_lt n (by decide))
            exact Or.inr ⟨_, _, _, _, rfl, hdigit _, hdigit _, hdigit _, hdigit _⟩

theorem escapeLength_repair (h : escapeLength s = some k) : escapeLength (repairFrom (.copy k) s) = some k := by
  rcases escapeLength_cases h with ⟨rfl, c, t, rfl, hc⟩ | ⟨rfl, a, b, c, d, t, rfl, ha, hb, hc, hd⟩
  · rw [repairFrom_copy_one]
    exact escapeLength_simple hc _
  · rw [repairFrom_copy_five]
    exact escapeLength_unicode ha hb hc hd _

theorem literalsOk_inside_escape (h : escapeLength s = some k) :
    literalsOk .inside (backslash :: s) = literalsOk (.copy k) s := by
  rw [literalsOk, if_neg (by decide), if_pos rfl, h]

theorem literalsOk_escapeControl (c : UInt16) (s : JsString) :
    literalsOk .inside (escapeControlCharacter c ++ s) = literalsOk .inside s := by
  rcases escapeControl_cases c with ⟨e, heq, he⟩ | ⟨a, b, d, e, heq, ha, hb, hd, he⟩
  · rw [heq]
    exact literalsOk_inside_escape (escapeLength_simple he s)
  · rw [heq]
    exact literalsOk_inside_escape (escapeLength_unicode ha hb hd he s)

/-- The literals come out right exactly where four hex digits follow each `\u`. -/
theorem literalsOk_repair (st : Scan) (s : JsString) : literalsOk st (repairFrom st s) = unicodeOk st s := by
  induction s generalizing st with
  | nil => rw [repairFrom, literalsOk, unicodeOk]
  | cons c s ih =>
    cases st with
    | outside => exact ih _
    | copy k => exact ih _
    | inside =>
      rw [repairFrom, unicodeOk]
      split
      · rename_i hq
        rw [literalsOk, if_pos hq]
        exact ih _
      · rename_i hq
        split
        · cases hk : escapeLength s with
          | some k =>
            rw [keptLength_eq hk]
            exact (literalsOk_inside_escape (escapeLength_repair hk)).trans (ih _)
          | none =>
            by_cases hu : s.head? = some 0x75
            · rw [keptLength_u hk hu]
              obtain ⟨t, rfl⟩ : ∃ t, s = 0x75 :: t := by
                cases s with
                | nil => cases hu
                | cons d t =>
                  cases hu
                  exact ⟨t, rfl⟩
              have hhex : hexPrefix 4 t = false := by
                rw [escapeLength, if_pos rfl] at hk
                rw [← Bool.not_eq_true]
                intro hhex
                rw [if_pos hhex] at hk
                cases hk
              have hnone : escapeLength (0x75 :: repairFrom .inside t) = none := by
                rw [escapeLength, if_pos rfl, hexPrefix_repair, hhex]
                rfl
              change literalsOk .inside (backslash :: 0x75 :: repairFrom .inside t) = false
              rw [literalsOk, if_neg (by decide), if_pos rfl, hnone]
            · rw [keptLength_none hk hu]
              have hhead : (s.head? != some 0x75) = true := by simpa using hu
              rw [hhead, Bool.true_and]
              exact (literalsOk_inside_escape (escapeLength_simple (by decide) _)).trans (ih _)
        · rename_i hb
          split
          · exact (literalsOk_escapeControl c _).trans (ih _)
          · rename_i hctl
            rw [singleton_append, literalsOk, if_neg hq, if_neg hb, Bool.eq_false_iff.mpr hctl]
            exact ih _

/-! ### Texts that parse after the repair -/

theorem strict_escapeControl (c : UInt16) (h : Strict s) : Strict (escapeControlCharacter c ++ s) := by
  rcases escapeControl_cases c with ⟨e, heq, he⟩ | ⟨a, b, d, e, heq, ha, hb, hd, he⟩
  · rw [heq]
    exact .escape he h
  · rw [heq]
    exact .unicode ha hb hd he h

theorem Loose.tail (h : Loose (c :: s)) (hc : c ≠ backslash) : Loose s := by
  cases h with
  | plain _ _ hs => exact hs
  | pair => exact absurd rfl hc

/-- The repair makes a literal of JSON of a loose one, and goes on behind it. -/
theorem Loose.repair (h : Loose s) (t : JsString) (hok : unicodeOk .inside (s ++ quote :: t) = true) :
    ∃ s', Strict s' ∧ repairFrom .inside (s ++ quote :: t) = s' ++ quote :: repairFrom .outside t ∧
      unicodeOk .outside t = true := by
  -- An escape with four digits takes six units at once: the induction is on the length.
  induction hn : s.length using Nat.strong_induction_on generalizing s with
  | _ n ih =>
    cases h with
    | nil =>
      rw [nil_append, unicodeOk, if_pos rfl] at hok
      refine ⟨[], .nil, ?_, hok⟩
      rw [nil_append, repairFrom, if_pos rfl]
      rfl
    | @plain c s hq hb hs =>
      rw [cons_append, unicodeOk, if_neg hq, if_neg hb] at hok
      obtain ⟨s', hs', heq, hok'⟩ := ih s.length (by simp only [length_cons] at hn; omega) hs hok rfl
      rw [cons_append, repairFrom, if_neg hq, if_neg hb, heq]
      cases hctl : isControl c with
      | true =>
        refine ⟨_, strict_escapeControl c hs', ?_, hok'⟩
        rw [if_pos rfl, append_assoc]
      | false => exact ⟨_, .plain hq hb hctl hs', rfl, hok'⟩
    | @pair c s hs =>
      rw [cons_append, cons_append, unicodeOk, if_neg (by decide), if_pos rfl] at hok
      rw [cons_append, cons_append, repairFrom, if_neg (by decide), if_pos rfl]
      cases hk : escapeLength (c :: (s ++ quote :: t)) with
      | some k =>
        rw [hk] at hok
        rw [keptLength_eq hk]
        dsimp only at hok ⊢
        rcases escapeLength_cases hk with ⟨rfl, c', t', hc', hsimple⟩ | ⟨rfl, a, b, d, e, t', hc', ha, hb, hd, he⟩
        · cases hc'
          obtain ⟨s', hs', heq, hok'⟩ := ih s.length (by simp only [length_cons] at hn; omega) hs hok rfl
          rw [repairFrom_copy_one, heq]
          exact ⟨_, .escape hsimple hs', rfl, hok'⟩
        · -- The digits are no quotes, so they are in the literal.
          rw [List.cons.injEq] at hc'
          obtain ⟨rfl, hc'⟩ := hc'
          obtain ⟨rest, rfl, hrest⟩ : ∃ rest, s = a :: b :: d :: e :: rest ∧ t' = rest ++ quote :: t := by
            match s, hc' with
            | [], hc' => exact absurd ((List.cons.inj hc').1 ▸ ha) (by decide)
            | [_], hc' => exact absurd ((List.cons.inj (List.cons.inj hc').2).1 ▸ hb) (by decide)
            | [_, _], hc' =>
              exact absurd ((List.cons.inj (List.cons.inj (List.cons.inj hc').2).2).1 ▸ hd) (by decide)
            | [_, _, _], hc' =>
              exact absurd ((List.cons.inj (List.cons.inj (List.cons.inj (List.cons.inj hc').2).2).2).1 ▸ he)
                (by decide)
            | x :: y :: z :: w :: rest, hc' =>
              simp only [cons_append, List.cons.injEq] at hc'
              obtain ⟨rfl, rfl, rfl, rfl, ht'⟩ := hc'
              exact ⟨rest, rfl, ht'.symm⟩
          have hloose : Loose rest :=
            (((hs.tail (isHex_plain ha).2.1).tail (isHex_plain hb).2.1).tail (isHex_plain hd).2.1).tail
              (isHex_plain he).2.1
          obtain ⟨s', hs', heq, hok'⟩ := ih rest.length (by simp only [length_cons] at hn; omega) hloose hok rfl
          refine ⟨_, .unicode ha hb hd he hs', ?_, hok'⟩
          simp only [cons_append]
          rw [repairFrom_copy_five, heq]
      | none =>
        rw [hk] at hok
        dsimp only at hok
        rw [Bool.and_eq_true] at hok
        have hu : c ≠ 0x75 := by simpa using hok.1
        have hsimple : isSimpleEscape c = false := by
          rw [← Bool.not_eq_true]
          intro hsimple
          rw [escapeLength_simple hsimple] at hk
          cases hk
        have hq : c ≠ quote := by
          rintro rfl
          exact absurd hsimple (by decide)
        have hb : c ≠ backslash := by
          rintro rfl
          exact absurd hsimple (by decide)
        rw [keptLength_none hk (by simpa using hu)]
        obtain ⟨s', hs', heq, hok'⟩ :=
          ih (c :: s).length (by simp only [length_cons] at hn ⊢; omega) (.plain hq hb hs) hok.2 rfl
        rw [cons_append] at heq
        dsimp only
        rw [heq]
        exact ⟨_, .escape (by decide) hs', rfl, hok'⟩

theorem quoted_append (s t : JsString) : quoted s ++ t = quote :: (s ++ quote :: t) := by
  simp [quoted]

theorem repairFrom_quote (s : JsString) : repairFrom .outside (quote :: s) = quote :: repairFrom .inside s := rfl

theorem repairFrom_plain (h : c ≠ quote) (s : JsString) :
    repairFrom .outside (c :: s) = c :: repairFrom .outside s := by
  rw [repairFrom, if_neg h]

variable {json : JsString}

theorem LooseJson.repair (h : LooseJson json) (hok : unicodeOk .outside json = true) : Json (repairJson json) := by
  have hplain : ∀ c t, c ≠ quote → repairFrom .outside (c :: t) = c :: repairFrom .outside t ∧
      (unicodeOk .outside (c :: t) = true → unicodeOk .outside t = true) := by
    intro c t hc
    refine ⟨repairFrom_plain hc t, ?_⟩
    rw [unicodeOk, if_neg hc]
    exact id
  have hlit : ∀ s t, Loose s → unicodeOk .outside (quoted s ++ t) = true → ∃ s', Strict s' ∧
      repairFrom .outside (quoted s ++ t) = quoted s' ++ repairFrom .outside t ∧ unicodeOk .outside t = true := by
    intro s t hs hquoted
    rw [quoted_append] at hquoted ⊢
    obtain ⟨s', hs', heq, hrest⟩ := hs.repair t hquoted
    refine ⟨s', hs', ?_, hrest⟩
    rw [repairFrom_quote, heq, quoted_append]
  have hjson : unicodeOk .outside (json ++ []) = true := by rwa [append_nil]
  obtain ⟨json', hjson', heq, -⟩ :=
    Text.rewrite (repairFrom .outside) (fun s => unicodeOk .outside s = true) hplain hlit h [] hjson
  rw [append_nil] at heq
  rw [repairJson, heq]
  exact (append_nil json').symm ▸ hjson'

/-! ### JSON is left as it is -/

theorem Strict.repair (h : Strict s) (t : JsString) :
    repairFrom .inside (s ++ quote :: t) = s ++ quote :: repairFrom .outside t := by
  induction h with
  | nil => rfl
  | plain hq hb hctl _ ih =>
    rw [cons_append, repairFrom, if_neg hq, if_neg hb, hctl, ih]
    rfl
  | escape hc _ ih =>
    rw [cons_append, cons_append, repairFrom, if_neg (by decide), if_pos rfl,
      keptLength_eq (escapeLength_simple hc _)]
    dsimp only
    rw [repairFrom_copy_one, ih]
    rfl
  | unicode ha hb hc hd _ ih =>
    simp only [cons_append]
    rw [repairFrom, if_neg (by decide), if_pos rfl, keptLength_eq (escapeLength_unicode ha hb hc hd _)]
    dsimp only
    rw [repairFrom_copy_five, ih]

theorem repairJson_json (h : Json json) : repairJson json = json := by
  have hlit : ∀ s t, Strict s → repairFrom .outside (quoted s ++ t) = quoted s ++ repairFrom .outside t := by
    intro s t hs
    rw [quoted_append, repairFrom_quote, Strict.repair hs, quoted_append]
  have hfixed := Text.fixed (fun c t hc => repairFrom_plain hc t) hlit h []
  rw [append_nil] at hfixed
  rw [repairJson, hfixed]
  exact append_nil json

/-- A text comes out as it is to exactly when four hex digits follow each `\u` in its literals. -/
theorem repaired_iff (json : JsString) : Repaired json ↔ unicodeOk .outside json = true := by
  have hliterals : literalsOk .outside (repairJson json) = unicodeOk .outside json := literalsOk_repair .outside json
  constructor
  · intro h
    rw [← hliterals]
    exact h.literals
  · intro hok
    exact ⟨hliterals.trans hok, fun h => h.repair hok, repairJson_json⟩

/-! ### Repairing again -/

theorem repairFrom_escape (h : keptLength s = some k) :
    repairFrom .inside (backslash :: s) = backslash :: repairFrom (.copy k) s := by
  rw [repairFrom, if_neg (by decide), if_pos rfl, h]

/-- An escape that is kept is kept again. -/
theorem keptLength_repair (h : keptLength s = some k) : keptLength (repairFrom (.copy k) s) = some k := by
  cases hk : escapeLength s with
  | some n =>
    obtain rfl : n = k := by simpa [keptLength_eq hk] using h
    exact keptLength_eq (escapeLength_repair hk)
  | none =>
    cases s with
    | nil => cases h
    | cons c t =>
      by_cases hc : c = 0x75
      · subst hc
        have hhex : hexPrefix 4 t = false := by
          rw [escapeLength, if_pos rfl] at hk
          cases hhex : hexPrefix 4 t with
          | false => rfl
          | true => rw [hhex] at hk; cases hk
        obtain rfl : 1 = k := by simpa [keptLength_u hk rfl] using h
        refine keptLength_u ?_ rfl
        rw [repairFrom_copy_one, escapeLength, if_pos rfl, hexPrefix_repair, hhex]
        rfl
      · rw [keptLength_none hk (by simpa using hc)] at h
        cases h

theorem repairFrom_escapeControl (c : UInt16) (s : JsString) :
    repairFrom .inside (escapeControlCharacter c ++ s) = escapeControlCharacter c ++ repairFrom .inside s := by
  rcases escapeControl_cases c with ⟨e, heq, he⟩ | ⟨a, b, d, e, heq, ha, hb, hd, he⟩
  · rw [heq]
    exact repairFrom_escape (keptLength_eq (escapeLength_simple he s))
  · rw [heq]
    exact repairFrom_escape (keptLength_eq (escapeLength_unicode ha hb hd he s))

theorem repairFrom_repair (st : Scan) (s : JsString) : repairFrom st (repairFrom st s) = repairFrom st s := by
  induction s generalizing st with
  | nil => rfl
  | cons c s ih =>
    cases st with
    | outside | copy => exact congrArg (List.cons c) (ih _)
    | inside =>
      rw [repairFrom]
      split
      · rename_i hq
        rw [repairFrom, if_pos hq, ih]
      · rename_i hq
        split
        · cases hk : keptLength s with
          | some k => rw [repairFrom_escape (keptLength_repair hk), ih]
          | none =>
            rw [repairFrom_escape (keptLength_eq (escapeLength_simple (by decide) _)), repairFrom_copy_one, ih]
        · rename_i hb
          split
          · rw [repairFrom_escapeControl, ih]
          · rename_i hctl
            rw [singleton_append, repairFrom, if_neg hq, if_neg hb, if_neg hctl, ih]
            rfl

/-- Repaired text is left as it is, whatever the text was, so that a repair is never tried on it. -/
theorem repairJson_repaired (json : JsString) : repairJson (repairJson json) = repairJson json ∧
    ∀ {α : Type} (parse : JsString → Option α),
      parseJsonWithRepair parse (repairJson json) = parse (repairJson json) := by
  have hsame : repairJson (repairJson json) = repairJson json := repairFrom_repair .outside json
  refine ⟨hsame, fun parse => ?_⟩
  rw [parseJsonWithRepair, hsame, if_neg (not_not.2 rfl)]
  cases parse (repairJson json) <;> rfl

/-- `"C:\users"` keeps its `\u`, which is no escape. -/
theorem users_kept : repairJson (ofAscii "\"C:\\users\"") = ofAscii "\"C:\\users\"" ∧
      LooseJson (ofAscii "\"C:\\users\"") ∧ literalsOk .outside (repairJson (ofAscii "\"C:\\users\"")) = false := by
  refine ⟨by decide, ?_, by decide⟩
  have hcontent : Loose (ofAscii "C:\\users") := by
    refine .plain (by decide) (by decide) (.plain (by decide) (by decide) (.pair ?_))
    repeat' first
      | exact .nil
      | refine .plain (by decide) (by decide) ?_
  have htext := Text.text (a := []) (b := []) (fun _ hc => by cases hc) (Text.string hcontent) (fun _ hc => by cases hc)
  exact htext

end Ai
end RePrime
