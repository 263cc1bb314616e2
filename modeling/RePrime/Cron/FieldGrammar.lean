import Mathlib.Data.Set.Basic
import RePrime.Cron.Schedule

/-!
# RePrime.Cron.FieldGrammar

What the fields of a cron expression are, said without the parser, and which texts the parser reads.

* `FieldText`: items with commas between them, and the values that they denote.
* `truncated`: a field without what the parser does not look at, behind a second dash or slash of an item.
* `denotes_iff`: the parser reads a field exactly when the truncated field is one, and then as that.
* `reads_fields_iff`: so it reads fields only, unless it drops something and reads the rest.
-/

namespace RePrime
namespace Cron

open Fallible List

/-- The bounds of a field. -/
structure FieldBounds where
  min : Nat
  max : Nat
  ordered : min ≤ max

/-! ## Fields -/

/-- Digits and their number. -/
def NumberText (text : List Char) (n : Nat) : Prop :=
  text ≠ [] ∧ (∀ c ∈ text, c.isDigit = true) ∧ text.foldl (fun a c => 10 * a + Json.digitValue c) 0 = n

/-- `*`, a number or `a-b`, with its first and its last value. -/
inductive RangeText (b : FieldBounds) : List Char → Nat → Nat → Prop where
  | all : RangeText b ['*'] b.min b.max
  | number {text : List Char} {n : Nat} (h : NumberText text n) (hmin : b.min ≤ n) (hmax : n ≤ b.max) :
    RangeText b text n n
  | range {first last : List Char} {start stop : Nat} (hfirst : NumberText first start) (hlast : NumberText last stop)
    (hmin : b.min ≤ start) (hle : start ≤ stop) (hmax : stop ≤ b.max) :
    RangeText b (first ++ '-' :: last) start stop

/-- A range, of which a step takes every so many values. -/
inductive ItemText (b : FieldBounds) : List Char → Set Nat → Prop where
  | plain {text : List Char} {start stop : Nat} (h : RangeText b text start stop) :
    ItemText b text {v | start ≤ v ∧ v ≤ stop}
  | stepped {text step : List Char} {start stop k : Nat} (h : RangeText b text start stop) (hstep : NumberText step k)
    (hpos : 1 ≤ k) (hmax : k ≤ b.max) :
    ItemText b (text ++ '/' :: step) {v | start ≤ v ∧ v ≤ stop ∧ (v - start) % k = 0}

def FieldText (b : FieldBounds) (field : List Char) (values : Set Nat) : Prop :=
  ∃ items : List (List Char × Set Nat), items ≠ [] ∧ (∀ item ∈ items, ItemText b item.1 item.2) ∧
    field = [','].intercalate (items.map Prod.fst) ∧ values = {v | ∃ item ∈ items, v ∈ item.2}

/-! ## What the parser looks at -/

/-- The first two pieces of a text. -/
def firstTwo (sep : Char) (text : List Char) : List Char := [sep].intercalate ((text.splitOn sep).take 2)

def truncatedPart (part : List Char) : List Char :=
  ['/'].intercalate (((part.splitOn '/').take 2).modifyHead (firstTwo '-'))

def truncated (field : List Char) : List Char := [','].intercalate ((field.splitOn ',').map truncatedPart)

/-- The parser reads a field as these values. -/
def Denotes (b : FieldBounds) (field : List Char) (values : Set Nat) : Prop :=
  ∃ parsed, parseCronField field b.min b.max = .ok parsed ∧ ∀ v, v ∈ parsed ↔ v ∈ values

/-! ## Pieces -/

variable {sep : Char} {text : List Char}

theorem notMem_of_mem_splitOn : ∀ {piece : List Char}, piece ∈ text.splitOn sep → sep ∉ piece := by
  induction text with
  | nil =>
    intro piece h
    rw [splitOn_nil, mem_singleton] at h
    rw [h]
    exact not_mem_nil
  | cons c text ih =>
    intro piece h
    rw [splitOn_cons_eq_if_modifyHead] at h
    split at h
    · obtain rfl | h := mem_cons.1 h
      · exact not_mem_nil
      · exact ih h
    · rename_i hc
      obtain ⟨head, rest, hsplit⟩ := exists_cons_of_ne_nil (splitOn_ne_nil sep text)
      rw [hsplit] at ih h
      obtain rfl | h := mem_cons.1 h
      · rw [mem_cons, not_or]
        exact ⟨fun heq => hc (beq_iff_eq.2 heq.symm), ih mem_cons_self⟩
      · exact ih (mem_cons_of_mem _ h)

variable {c : Char}

theorem mem_intercalate {piece : List Char} {pieces : List (List Char)} (hp : piece ∈ pieces)
    (hc : c ∈ piece) : c ∈ [sep].intercalate pieces := by
  induction pieces with
  | nil => cases hp
  | cons first rest ih =>
    cases rest with
    | nil =>
      rw [mem_singleton] at hp
      rwa [intercalate_singleton, ← hp]
    | cons second rest =>
      rw [intercalate_cons_cons, mem_append, mem_append]
      obtain rfl | hp := mem_cons.1 hp
      · exact .inl (.inl hc)
      · exact .inr (ih hp)

theorem of_mem_intercalate {pieces : List (List Char)} (hc : c ∈ [sep].intercalate pieces) :
    c = sep ∨ ∃ piece ∈ pieces, c ∈ piece := by
  induction pieces with
  | nil => cases hc
  | cons first rest ih =>
    cases rest with
    | nil =>
      rw [intercalate_singleton] at hc
      exact .inr ⟨first, mem_cons_self, hc⟩
    | cons second rest =>
      rw [intercalate_cons_cons, mem_append, mem_append] at hc
      obtain (hc | hc) | hc := hc
      · exact .inr ⟨first, mem_cons_self, hc⟩
      · exact .inl (mem_singleton.1 hc)
      · obtain hsep | ⟨piece, hp, hc⟩ := ih hc
        · exact .inl hsep
        · exact .inr ⟨piece, mem_cons_of_mem _ hp, hc⟩

theorem mem_of_mem_splitOn {piece : List Char} (hp : piece ∈ text.splitOn sep) (hc : c ∈ piece) : c ∈ text := by
  rw [← @List.intercalate_splitOn _ text _ _ sep]
  exact mem_intercalate hp hc

theorem splitOn_of_mem (h : sep ∈ text) :
    ∃ first second more, text.splitOn sep = first :: second :: more ∧ sep ∉ first ∧ sep ∉ second := by
  obtain ⟨first, rest, rfl, hfirst⟩ := eq_append_cons_of_mem h
  obtain ⟨second, more, hrest⟩ := exists_cons_of_ne_nil (splitOn_ne_nil sep rest)
  refine ⟨first, second, more, ?_, hfirst, notMem_of_mem_splitOn (hrest ▸ mem_cons_self)⟩
  rw [splitOn_append_cons_self_of_not_mem hfirst, hrest]

theorem firstTwo_of_notMem (h : sep ∉ text) : firstTwo sep text = text := by
  rw [firstTwo, splitOn_eq_singleton h]
  exact intercalate_singleton

theorem firstTwo_of_splitOn {first second : List Char} {more : List (List Char)}
    (h : text.splitOn sep = first :: second :: more) : firstTwo sep text = first ++ sep :: second := by
  rw [firstTwo, h, take_succ_cons, take_succ_cons, take_zero, intercalate_cons_cons,
    intercalate_singleton, append_assoc]
  rfl

theorem mem_of_mem_firstTwo (h : c ∈ firstTwo sep text) : c ∈ text := by
  by_cases hsep : sep ∈ text
  · obtain rfl | ⟨piece, hpiece, hc⟩ := of_mem_intercalate h
    · exact hsep
    · exact mem_of_mem_splitOn (mem_of_mem_take hpiece) hc
  · rwa [firstTwo_of_notMem hsep] at h

variable {part : List Char}

theorem truncatedPart_of_notMem (h : '/' ∉ part) : truncatedPart part = firstTwo '-' part := by
  rw [truncatedPart, splitOn_eq_singleton h]
  exact intercalate_singleton

theorem truncatedPart_of_splitOn {step : List Char} {more : List (List Char)}
    (h : part.splitOn '/' = text :: step :: more) : truncatedPart part = firstTwo '-' text ++ '/' :: step := by
  rw [truncatedPart, h]
  simp only [take_succ_cons, take_zero, modifyHead_cons]
  rw [intercalate_cons_cons, intercalate_singleton, append_assoc]
  rfl

theorem mem_of_mem_truncatedPart (h : c ∈ truncatedPart part) : c ∈ part := by
  by_cases hslash : '/' ∈ part
  · obtain ⟨text, step, more, hsplit, -, -⟩ := splitOn_of_mem hslash
    rw [truncatedPart_of_splitOn hsplit, mem_append, mem_cons] at h
    obtain h | rfl | h := h
    · exact mem_of_mem_splitOn (hsplit ▸ mem_cons_self) (mem_of_mem_firstTwo h)
    · exact hslash
    · exact mem_of_mem_splitOn (hsplit ▸ mem_cons_of_mem _ mem_cons_self) h
  · rw [truncatedPart_of_notMem hslash] at h
    exact mem_of_mem_firstTwo h

/-! ## Numbers and ranges -/

theorem parseCronNumber_ok {min max n : Nat} :
    parseCronNumber text min max = .ok n ↔ NumberText text n ∧ min ≤ n ∧ n ≤ max := by
  rw [parseCronNumber, Json.readNat]
  by_cases htext : text ≠ [] ∧ text.all Char.isDigit = true
  · rw [if_pos htext]
    simp only []
    rw [all_eq_true] at htext
    split
    · rename_i hout
      refine iff_of_false (fun h => by cases h) ?_
      rintro ⟨⟨-, -, rfl⟩, hmin, hmax⟩
      omega
    · rename_i hin
      constructor
      · intro h
        cases h
        exact ⟨⟨htext.1, htext.2, rfl⟩, by omega, by omega⟩
      · rintro ⟨⟨-, -, rfl⟩, -, -⟩
        rfl
  · rw [if_neg htext]
    refine iff_of_false (fun h => by cases h) ?_
    rintro ⟨⟨hne, hdigits, -⟩, -, -⟩
    exact htext ⟨hne, all_eq_true.2 hdigits⟩

theorem NumberText.notMem {n : Nat} (h : NumberText text n) (hc : c.isDigit = false) : c ∉ text := by
  intro hmem
  rw [h.2.1 c hmem] at hc
  cases hc

variable {b : FieldBounds} {start stop : Nat}

/-- A range has no other characters than digits, `*` and `-`. -/
theorem RangeText.notMem (h : RangeText b text start stop)
    (hc : c.isDigit = false) (hstar : c ≠ '*') (hdash : c ≠ '-') : c ∉ text := by
  cases h with
  | all => simpa using hstar
  | number h => exact h.notMem hc
  | range hfirst hlast =>
    rw [mem_append, mem_cons]
    rintro (hmem | rfl | hmem)
    · exact hfirst.notMem hc hmem
    · exact hdash rfl
    · exact hlast.notMem hc hmem

theorem RangeText.of_star (h : RangeText b ['*'] start stop) : start = b.min ∧ stop = b.max := by
  generalize htext : ['*'] = text at h
  cases h with
  | all => exact ⟨rfl, rfl⟩
  | number h =>
    refine absurd ?_ (h.notMem (c := '*') (by decide))
    rw [← htext]
    exact mem_singleton_self _
  | @range first last _ _ _ _ _ _ _ =>
    have hmem : '-' ∈ first ++ '-' :: last := by simp
    rw [← htext] at hmem
    exact absurd hmem (by decide)

theorem RangeText.of_dash {first last : List Char} (hfirst : '-' ∉ first)
    (h : RangeText b (first ++ '-' :: last) start stop) :
    NumberText first start ∧ NumberText last stop ∧ b.min ≤ start ∧ start ≤ stop ∧ stop ≤ b.max := by
  have hmem : '-' ∈ first ++ '-' :: last := by simp
  generalize htext : first ++ '-' :: last = text at h hmem
  cases h with
  | all => exact absurd hmem (by decide)
  | number h => exact absurd hmem (h.notMem (by decide))
  | @range first' last' _ _ hfirst' hlast' hmin hle hmax =>
    have hsplit := congrArg (List.splitOn '-') htext
    rw [splitOn_append_cons_self_of_not_mem hfirst,
      splitOn_append_cons_self_of_not_mem (hfirst'.notMem (by decide))] at hsplit
    obtain ⟨hfirsts, -⟩ := cons_eq_cons.1 hsplit
    rw [hfirsts] at htext ⊢
    obtain ⟨-, hlasts⟩ := cons_eq_cons.1 (append_cancel_left htext)
    rw [hlasts]
    exact ⟨hfirst', hlast', hmin, hle, hmax⟩

theorem RangeText.of_number (hstar : text ≠ ['*']) (hdash : '-' ∉ text) (h : RangeText b text start stop) :
    NumberText text start ∧ stop = start ∧ b.min ≤ start ∧ start ≤ b.max := by
  cases h with
  | all => exact absurd rfl hstar
  | number h hmin hmax => exact ⟨h, rfl, hmin, hmax⟩
  | range => exact absurd (by simp) hdash

theorem parseCronRange_ok {range : Nat × Nat} :
    parseCronRange text b.min b.max = .ok range ↔ RangeText b (firstTwo '-' text) range.1 range.2 := by
  obtain ⟨start, stop⟩ := range
  rw [parseCronRange]
  by_cases hstar : text = ['*']
  · rw [if_pos hstar, firstTwo_of_notMem (by rw [hstar]; decide), hstar]
    constructor
    · intro h
      cases h
      exact .all
    · intro h
      obtain ⟨rfl, rfl⟩ := h.of_star
      rfl
  · rw [if_neg hstar]
    by_cases hdash : '-' ∈ text
    · obtain ⟨first, last, more, hsplit, hfirst, hlast⟩ := splitOn_of_mem hdash
      rw [if_pos hdash, firstTwo_of_splitOn hsplit, hsplit]
      constructor
      · intro h
        obtain ⟨start', hstart, h⟩ := bind_ok.1 h
        obtain ⟨stop', hstop, h⟩ := bind_ok.1 h
        obtain ⟨hstart, hmin, -⟩ := parseCronNumber_ok.1 hstart
        obtain ⟨hstop, -, hmax⟩ := parseCronNumber_ok.1 hstop
        split at h
        · cases h
        · rename_i hle
          cases h
          exact .range hstart hstop hmin (Nat.le_of_not_lt hle) hmax
      · intro h
        obtain ⟨hstart, hstop, hmin, hle, hmax⟩ := h.of_dash hfirst
        refine bind_ok.2 ⟨start, parseCronNumber_ok.2 ⟨hstart, hmin, Nat.le_trans hle hmax⟩, ?_⟩
        refine bind_ok.2 ⟨stop, parseCronNumber_ok.2 ⟨hstop, Nat.le_trans hmin hle, hmax⟩, ?_⟩
        exact if_neg (Nat.not_lt_of_le hle)
    · rw [if_neg hdash, firstTwo_of_notMem hdash]
      constructor
      · intro h
        obtain ⟨n, hn, h⟩ := bind_ok.1 h
        cases h
        obtain ⟨hn, hmin, hmax⟩ := parseCronNumber_ok.1 hn
        exact .number hn hmin hmax
      · intro h
        obtain ⟨hn, hstop, hmin, hmax⟩ := h.of_number hstar hdash
        refine bind_ok.2 ⟨start, parseCronNumber_ok.2 ⟨hn, hmin, hmax⟩, ?_⟩
        exact congrArg (fun n => Except.ok (start, n)) hstop.symm

theorem RangeText.whole (h : RangeText b text start stop) : firstTwo '-' text = text := by
  cases h with
  | all => exact firstTwo_of_notMem (by decide)
  | number h => exact firstTwo_of_notMem (h.notMem (by decide))
  | range hfirst hlast =>
    refine @firstTwo_of_splitOn _ _ _ _ [] ?_
    rw [splitOn_append_cons_self_of_not_mem (hfirst.notMem (by decide)),
      splitOn_eq_singleton (hlast.notMem (by decide))]

theorem RangeText.le (h : RangeText b text start stop) : start ≤ stop := by
  cases h with
  | all => exact b.ordered
  | number => exact Nat.le_refl _
  | range _ _ _ hle => exact hle

/-! ## Items -/

theorem mem_stepValues {k v : Nat} (hle : start ≤ stop) :
    v ∈ stepValues start stop k ↔ start ≤ v ∧ v ≤ stop ∧ (v - start) % k = 0 := by
  rw [stepValues, mem_range']
  constructor
  · rintro ⟨i, hi, rfl⟩
    have hbound : k * i ≤ stop - start := by
      have hdiv := Nat.mul_le_mul_left k (Nat.le_of_lt_succ hi)
      exact Nat.le_trans hdiv (Nat.mul_div_le _ _)
    refine ⟨Nat.le_add_right _ _, by omega, ?_⟩
    rw [Nat.add_sub_cancel_left, Nat.mul_mod_right]
  · rintro ⟨hstart, hstop, hmod⟩
    refine ⟨(v - start) / k, ?_, ?_⟩
    · exact Nat.lt_succ_of_le (Nat.div_le_div_right (by omega))
    · have hdiv := Nat.div_add_mod (v - start) k
      omega

variable {values : Set Nat}

theorem ItemText.of_slash {step : List Char} (htext : '/' ∉ text) (h : ItemText b (text ++ '/' :: step) values) :
    ∃ start stop k, RangeText b text start stop ∧ (NumberText step k ∧ 1 ≤ k ∧ k ≤ b.max) ∧
      values = {v | start ≤ v ∧ v ≤ stop ∧ (v - start) % k = 0} := by
  have hmem : '/' ∈ text ++ '/' :: step := by simp
  generalize hitem : text ++ '/' :: step = item at h hmem
  cases h with
  | plain h => exact absurd hmem (h.notMem (by decide) (by decide) (by decide))
  | @stepped text' step' start stop k h hstep hpos hmax =>
    have htext' : '/' ∉ text' := h.notMem (by decide) (by decide) (by decide)
    have hsplit := congrArg (List.splitOn '/') hitem
    rw [splitOn_append_cons_self_of_not_mem htext, splitOn_append_cons_self_of_not_mem htext'] at hsplit
    obtain ⟨htexts, -⟩ := cons_eq_cons.1 hsplit
    rw [htexts] at hitem ⊢
    obtain ⟨-, hsteps⟩ := cons_eq_cons.1 (append_cancel_left hitem)
    rw [hsteps]
    exact ⟨start, stop, k, h, ⟨hstep, hpos, hmax⟩, rfl⟩

theorem ItemText.of_plain (htext : '/' ∉ text) (h : ItemText b text values) :
    ∃ start stop, RangeText b text start stop ∧ values = {v | start ≤ v ∧ v ≤ stop} := by
  cases h with
  | plain h => exact ⟨_, _, h, rfl⟩
  | stepped => exact absurd (by simp) htext

variable {field : List Char}

theorem parseCronPart_eq_ok {parsed : List Nat} : parseCronPart field part b.min b.max = .ok parsed ↔
      ∃ k, ∃ range : Nat × Nat, parseCronStep (part.splitOn '/')[1]? b.max = .ok k ∧
        RangeText b (firstTwo '-' ((part.splitOn '/').getD 0 [])) range.1 range.2 ∧
        stepValues range.1 range.2 k = parsed := by
  rw [parseCronPart]
  split
  · rename_i hempty
    rw [hempty]
    refine iff_of_false (fun h => by cases h) ?_
    rintro ⟨k, range, -, hrange, -⟩
    exact (hrange.of_number (by decide) (by decide)).1.1 rfl
  · constructor
    · intro h
      obtain ⟨k, hk, h⟩ := bind_ok.1 h
      obtain ⟨range, hrange, h⟩ := bind_ok.1 h
      cases h
      exact ⟨k, range, hk, parseCronRange_ok.1 hrange, rfl⟩
    · rintro ⟨k, range, hk, hrange, rfl⟩
      exact bind_ok.2 ⟨k, hk, bind_ok.2 ⟨range, parseCronRange_ok.2 hrange, rfl⟩⟩

theorem parseCronPart_iff :
    (∃ parsed, parseCronPart field part b.min b.max = .ok parsed ∧ ∀ v, v ∈ parsed ↔ v ∈ values) ↔
      ItemText b (truncatedPart part) values := by
  simp only [parseCronPart_eq_ok]
  by_cases hslash : '/' ∈ part
  · obtain ⟨text, step, more, hsplit, htext, hstep⟩ := splitOn_of_mem hslash
    have htwo : '/' ∉ firstTwo '-' text := fun hmem => htext (mem_of_mem_firstTwo hmem)
    rw [truncatedPart_of_splitOn hsplit, hsplit]
    constructor
    · rintro ⟨parsed, ⟨k, range, hk, hrange, rfl⟩, hmem⟩
      obtain ⟨hnumber, hpos, hmax⟩ := parseCronNumber_ok.1 hk
      have hvalues : values = {v | range.1 ≤ v ∧ v ≤ range.2 ∧ (v - range.1) % k = 0} := by
        ext v
        rw [← hmem v, mem_stepValues hrange.le]
        rfl
      rw [hvalues]
      exact .stepped hrange hnumber hpos hmax
    · intro h
      obtain ⟨start, stop, k, hrange, hk, rfl⟩ := h.of_slash htwo
      refine ⟨stepValues start stop k, ⟨k, (start, stop), parseCronNumber_ok.2 hk, hrange, rfl⟩, fun v => ?_⟩
      exact mem_stepValues hrange.le
  · have hsplit := splitOn_eq_singleton hslash
    have htwo : '/' ∉ firstTwo '-' part := fun hmem => hslash (mem_of_mem_firstTwo hmem)
    rw [truncatedPart_of_notMem hslash, hsplit]
    constructor
    · rintro ⟨parsed, ⟨k, range, hk, hrange, rfl⟩, hmem⟩
      cases hk
      have hvalues : values = {v | range.1 ≤ v ∧ v ≤ range.2} := by
        ext v
        rw [← hmem v, mem_stepValues hrange.le, Nat.mod_one]
        simp
      rw [hvalues]
      exact .plain hrange
    · intro h
      obtain ⟨start, stop, hrange, rfl⟩ := h.of_plain htwo
      refine ⟨stepValues start stop 1, ⟨1, (start, stop), rfl, hrange, rfl⟩, fun v => ?_⟩
      rw [mem_stepValues hrange.le, Nat.mod_one]
      simp

theorem ItemText.whole (h : ItemText b text values) : ',' ∉ text ∧ truncatedPart text = text := by
  cases h with
  | plain h =>
    refine ⟨h.notMem (by decide) (by decide) (by decide), ?_⟩
    rw [truncatedPart_of_notMem (h.notMem (by decide) (by decide) (by decide)), h.whole]
  | stepped h hstep =>
    constructor
    · rw [mem_append, mem_cons]
      rintro (hmem | hmem | hmem)
      · exact h.notMem (by decide) (by decide) (by decide) hmem
      · exact absurd hmem (by decide)
      · exact hstep.notMem (by decide) hmem
    · rw [truncatedPart_of_splitOn (splitOn_append_cons_self_of_not_mem
        (h.notMem (by decide) (by decide) (by decide)) _ |>.trans
        (by rw [splitOn_eq_singleton (hstep.notMem (by decide))])), h.whole]

/-! ## Whole fields -/

theorem mapM_parts_iff {parts : List (List Char)} :
    (∃ parsed, (parts.mapM fun part => parseCronPart field part b.min b.max) = .ok parsed ∧
        ∀ v, v ∈ parsed.flatten ↔ v ∈ values) ↔
      ∃ items : List (List Char × Set Nat), items.map Prod.fst = parts.map truncatedPart ∧
        (∀ item ∈ items, ItemText b item.1 item.2) ∧ values = {v | ∃ item ∈ items, v ∈ item.2} := by
  induction parts generalizing values with
  | nil =>
    constructor
    · rintro ⟨parsed, hparsed, hmem⟩
      cases hparsed
      refine ⟨[], rfl, fun item hitem => absurd hitem not_mem_nil, ?_⟩
      ext v
      rw [← hmem v]
      simp
    · rintro ⟨items, hitems, -, rfl⟩
      have hnil := map_eq_nil_iff.1 hitems
      refine ⟨[], rfl, fun v => ?_⟩
      simp [hnil]
  | cons part parts ih =>
    constructor
    · rintro ⟨parsed, hparsed, hmem⟩
      rw [mapM_cons] at hparsed
      obtain ⟨first, hfirst, hparsed⟩ := bind_ok.1 hparsed
      obtain ⟨rest, hrest, hparsed⟩ := bind_ok.1 hparsed
      cases hparsed
      have hitem : ItemText b (truncatedPart part) {v | v ∈ first} :=
        parseCronPart_iff.1 ⟨first, hfirst, fun v => Iff.rfl⟩
      have hothers : ∀ v, v ∈ rest.flatten ↔ v ∈ ({v | v ∈ rest.flatten} : Set Nat) := fun v => Iff.rfl
      obtain ⟨items, hmap, hitems, hvalues⟩ := ih.1 ⟨rest, hrest, hothers⟩
      refine ⟨(truncatedPart part, {v | v ∈ first}) :: items, by rw [map_cons, map_cons, hmap], ?_, ?_⟩
      · intro item hmember
        obtain rfl | hmember := mem_cons.1 hmember
        · exact hitem
        · exact hitems item hmember
      · ext v
        have hv := hothers v
        rw [hvalues] at hv
        rw [← hmem v, flatten_cons, mem_append, hv]
        simp
    · rintro ⟨items, hmap, hitems, rfl⟩
      obtain ⟨item, others, rfl, hitem, hothers⟩ := map_eq_cons_iff.1 hmap
      have hfirst := hitems item mem_cons_self
      rw [hitem] at hfirst
      obtain ⟨first, hfirst, hfirstMem⟩ := parseCronPart_iff.2 hfirst
      obtain ⟨rest, hrest, hrestMem⟩ :=
        ih.2 ⟨others, hothers, fun item hmember => hitems item (mem_cons_of_mem _ hmember), rfl⟩
      refine ⟨first :: rest, ?_, fun v => ?_⟩
      · rw [mapM_cons]
        exact bind_ok.2 ⟨first, hfirst, bind_ok.2 ⟨rest, hrest, rfl⟩⟩
      · rw [flatten_cons, mem_append, hfirstMem, hrestMem]
        simp

/-- The parser reads a field exactly when what is left of it is one, and as that. -/
theorem denotes_iff : Denotes b field values ↔ FieldText b (truncated field) values := by
  have hparts : ∀ text ∈ (field.splitOn ',').map truncatedPart, ',' ∉ text := by
    intro text htext
    obtain ⟨part, hpart, rfl⟩ := mem_map.1 htext
    exact fun hmem => notMem_of_mem_splitOn hpart (mem_of_mem_truncatedPart hmem)
  have hne : (field.splitOn ',').map truncatedPart ≠ [] := by
    rw [Ne, map_eq_nil_iff]
    exact splitOn_ne_nil ',' field
  have hsplit : (truncated field).splitOn ',' = (field.splitOn ',').map truncatedPart :=
    splitOn_intercalate ',' hparts hne
  have hdenotes : Denotes b field values ↔
      ∃ parsed, ((field.splitOn ',').mapM fun part => parseCronPart field part b.min b.max) = .ok parsed ∧
        ∀ v, v ∈ parsed.flatten ↔ v ∈ values := by
    constructor
    · rintro ⟨parsed, hparsed, hmem⟩
      obtain ⟨lists, hlists, hparsed⟩ := bind_ok.1 hparsed
      cases hparsed
      exact ⟨lists, hlists, hmem⟩
    · rintro ⟨lists, hlists, hmem⟩
      exact ⟨lists.flatten, bind_ok.2 ⟨lists, hlists, rfl⟩, hmem⟩
  rw [hdenotes, mapM_parts_iff]
  constructor
  · rintro ⟨items, hmap, hitems, hvalues⟩
    refine ⟨items, ?_, hitems, by rw [hmap]; rfl, hvalues⟩
    rintro rfl
    exact hne hmap.symm
  · rintro ⟨items, hitemsne, hitems, htext, hvalues⟩
    refine ⟨items, ?_, hitems, hvalues⟩
    rw [← hsplit, htext, splitOn_intercalate]
    · intro text htext
      obtain ⟨item, hitem, rfl⟩ := mem_map.1 htext
      exact (hitems item hitem).whole.1
    · rwa [Ne, map_eq_nil_iff]

theorem FieldText.whole (h : FieldText b field values) : truncated field = field := by
  obtain ⟨items, hne, hitems, rfl, -⟩ := h
  have hsplit : ([','].intercalate (items.map Prod.fst)).splitOn ',' = items.map Prod.fst := by
    refine splitOn_intercalate ',' ?_ (by rwa [Ne, map_eq_nil_iff])
    intro text htext
    obtain ⟨item, hitem, rfl⟩ := mem_map.1 htext
    exact (hitems item hitem).whole.1
  rw [truncated, hsplit, map_map]
  exact congrArg _ (map_congr_left fun item hitem => (hitems item hitem).whole.2)

/-- The parser reads exactly the fields, and each as the values it denotes, unless there is something behind a
second dash or slash of an item and the text without it is a field. -/
theorem reads_fields_iff (b : FieldBounds) (field : List Char) :
    (∀ values, Denotes b field values ↔ FieldText b field values) ↔
      (truncated field = field ∨ ¬∃ values, FieldText b (truncated field) values) := by
  constructor
  · intro h
    by_cases hrest : ∃ values, FieldText b (truncated field) values
    · obtain ⟨values, hvalues⟩ := hrest
      exact .inl ((h values).1 (denotes_iff.2 hvalues)).whole
    · exact .inr hrest
  · rintro (hsame | hnone) values
    · rw [denotes_iff, hsame]
    · refine iff_of_false (fun h => hnone ⟨values, denotes_iff.1 h⟩) (fun h => hnone ⟨values, ?_⟩)
      rwa [h.whole]

/-- `1-5-9` for a weekday is read as `1-5`. -/
theorem reads_second_dash : ¬∀ values, Denotes ⟨0, 7, by decide⟩ "1-5-9".toList values ↔
    FieldText ⟨0, 7, by decide⟩ "1-5-9".toList values := by
  intro h
  have hparsed : parseCronField "1-5-9".toList 0 7 = .ok [1, 2, 3, 4, 5] := by rfl
  have hfield := (h {v | v ∈ [1, 2, 3, 4, 5]}).1 ⟨_, hparsed, fun v => Iff.rfl⟩
  exact absurd hfield.whole (by decide)

end Cron
end RePrime
