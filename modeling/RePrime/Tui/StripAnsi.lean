import RePrime.Lib.JsScan
import RePrime.Tui.Ansi

/-!
# RePrime.Tui.StripAnsi

`stripAnsi` (`utils.ts`): the text without its escape sequences. A regular expression takes the common CSI form
first, wherever it stands; a scan takes the rest, and two-unit escapes with it.

* `stripAnsi_units`: of text in which every ESC starts a complete sequence, the units outside them are left.
* `stripAnsi_stripAnsi`: what is left is left alone.
-/

namespace RePrime
namespace Tui

open List Option
open JsText (replaceAll replaceFrom NoMatch)

/-! ### The two passes -/

/-- The rest of a match of `COMMON_CSI_REGEX`, after `ESC [`. -/
def commonCsiRest : JsString → Option Nat
  | [] => none
  | b :: rest =>
    if 0x30 ≤ b ∧ b ≤ 0x3f then (commonCsiRest rest).map (· + 1)
    else if 0x40 ≤ b ∧ b ≤ 0x7e then some 1
    else none

/-- A match of `COMMON_CSI_REGEX` at the start: its length. -/
def commonCsi : JsString → Option Nat
  | e :: b :: rest => if e = esc ∧ b = 0x5b then (commonCsiRest rest).map (· + 2) else none
  | _ => none

/-- What a `.` of a regular expression does not match. -/
def isLineTerminator (c : UInt16) : Bool := c = 0x0a || c = 0x0d || c = 0x2028 || c = 0x2029

/-- What the scan drops at the start: a sequence, or an ESC and the unit after it. -/
def escapeLength : JsString → Option Nat
  | [] => none
  | c :: s =>
    if c ≠ esc then none
    else
      match extractAnsi (c :: s) with
      | some n => some n
      | none => if s.head?.all isLineTerminator then none else some 2

/-- `s.replace(/…/g, "")`. -/
def dropAll (f : JsString → Option Nat) (s : JsString) : JsString := replaceAll (fun t => (f t).map (·, [])) s

def stripAnsi (s : JsString) : JsString := dropAll escapeLength (dropAll commonCsi s)

variable {f : JsString → Option Nat}

@[simp] theorem dropAll_nil : dropAll f [] = [] := rfl

theorem dropAll_match {m rest : JsString} (h : f (m ++ rest) = some m.length) (hm : m ≠ []) :
    dropAll f (m ++ rest) = dropAll f rest := by
  have hmatch : (f (m ++ rest)).map (·, ([] : JsString)) = some (m.length, []) := by rw [h]; rfl
  exact @JsText.replaceAll_match _ (fun t => (f t).map (·, [])) m rest [] hmatch hm

theorem dropAll_unit {c : UInt16} {s : JsString} (h : f (c :: s) = none) : dropAll f (c :: s) = c :: dropAll f s := by
  have hnone : (f (c :: s)).map (·, ([] : JsString)) = none := by rw [h]; rfl
  exact @JsText.replaceAll_unit _ (fun t => (f t).map (·, [])) c s hnone

theorem dropAll_append {part rest : JsString} (h : ∀ a b, part = a ++ b → b ≠ [] → f (b ++ rest) = none) :
    dropAll f (part ++ rest) = part ++ dropAll f rest := by
  refine @JsText.replaceAll_append _ (fun t => (f t).map (·, [])) part rest fun a b hab hb => ?_
  change (f (b ++ rest)).map (·, ([] : JsString)) = none
  rw [h a b hab hb]
  rfl

/-! ### Sequences in the first pass -/

theorem commonCsi_head {c : UInt16} {s : JsString} (h : c ≠ esc) : commonCsi (c :: s) = none := by
  cases s with
  | nil => rfl
  | cons d s => rw [commonCsi, if_neg fun hc => h hc.1]

theorem commonCsiRest_csi {s : JsString} {n : Nat} (h : commonCsiRest s = some n) : csiLength false s = some n := by
  induction s generalizing n with
  | nil => cases h
  | cons b rest ih =>
    simp only [commonCsiRest] at h
    split at h
    · rename_i hb
      obtain ⟨m, hm, rfl⟩ := map_eq_some_iff.mp h
      rw [csiLength, if_pos ⟨hb.1, hb.2, rfl⟩, ih hm]
      rfl
    · rename_i hb
      split at h
      · rename_i hfinal
        cases h
        have hlow : ¬ (0x20 ≤ b ∧ b ≤ 0x2f) := by
          rintro ⟨-, hle⟩
          exact absurd (UInt16.le_trans hfinal.1 hle) (by decide)
        rw [csiLength, if_neg fun h => hb ⟨h.1, h.2.1⟩, if_neg hlow, if_pos hfinal]
      · cases h

theorem commonCsi_extract {s : JsString} {n : Nat} (h : commonCsi s = some n) : extractAnsi s = some n := by
  match s, h with
  | e :: b :: rest, h =>
    simp only [commonCsi] at h
    split at h
    · rename_i heb
      obtain ⟨m, hm, rfl⟩ := map_eq_some_iff.mp h
      rw [extractAnsi, if_neg (not_not.mpr heb.1), if_pos heb.2, commonCsiRest_csi hm]
      rfl
    · cases h

theorem commonCsiRest_append {s : JsString} (h : commonCsiRest s = none)
    (hs : ∃ u ∈ s, ¬ (0x30 ≤ u ∧ u ≤ 0x3f)) (rest : JsString) : commonCsiRest (s ++ rest) = none := by
  induction s with
  | nil =>
    obtain ⟨u, hu, -⟩ := hs
    cases hu
  | cons b s ih =>
    rw [cons_append]
    simp only [commonCsiRest] at h ⊢
    by_cases hb : 0x30 ≤ b ∧ b ≤ 0x3f
    · rw [if_pos hb] at h ⊢
      rw [ih (map_eq_none_iff.mp h)]
      · rfl
      · obtain ⟨u, hu, hparam⟩ := hs
        rcases mem_cons.mp hu with rfl | hu
        · exact absurd hb hparam
        · exact ⟨u, hu, hparam⟩
    · rw [if_neg hb] at h ⊢
      split at h
      · cases h
      · rename_i hfinal
        rw [if_neg hfinal]

/-! ### What the passes leave of a sequence -/

theorem Complete.ne_nil {code : JsString} (h : Complete code) : code ≠ [] := by
  rintro rfl
  cases h

/-- No common CSI sequence starts inside the sequence. -/
def NoCsiInside (code : JsString) : Prop := ∀ a b, code = a ++ b → a ≠ [] → commonCsi b = none

/-- The text after a sequence completes no CSI sequence that starts in it. -/
theorem Complete.commonCsi_append {code a b : JsString} (h : Complete code) (hab : code = a ++ b) (hb : b ≠ [])
    (hnone : commonCsi b = none) (rest : JsString) : commonCsi (b ++ rest) = none := by
  obtain ⟨c, hlast, hcases⟩ := h.ends
  have hne : c ≠ esc := by
    rintro rfl
    rcases hcases with ⟨_, -, -, -, hc, -⟩ | hc | hc
    · exact absurd hc (by decide)
    · cases hc
    · cases hc
  have hlastb : b.getLast? = some c := by
    rwa [hab, getLast?_append_of_ne_nil _ hb] at hlast
  match b, hb, hnone, hlastb with
  | [x], _, _, hx =>
    cases hx
    exact commonCsi_head hne
  | x :: y :: b', _, hnone, hlastb =>
    by_cases hxy : x = esc ∧ y = 0x5b
    · rw [commonCsi, if_pos hxy, map_eq_none_iff] at hnone
      change commonCsi (x :: y :: (b' ++ rest)) = none
      rw [commonCsi, if_pos hxy, map_eq_none_iff]
      refine commonCsiRest_append hnone ⟨c, ?_, ?_⟩ rest
      · -- the sequence goes on after `ESC [`
        rcases hcases with ⟨r, hcode, hesc, hc, -⟩ | hc
        · rw [hcode] at hab
          match a, hab with
          | [], hab =>
            cases hab
            exact hc
          | [_], hab =>
            cases hab
            exact absurd hxy.1 (by decide)
          | _ :: _ :: a, hab =>
            cases hab
            exact absurd (by rw [hxy.1]; exact mem_append_right _ mem_cons_self) hesc
        · cases b' with
          | nil =>
            cases hlastb
            rw [hxy.2] at hc
            rcases hc with hc | hc
            · cases hc
            · cases hc
          | cons z b' => exact mem_of_getLast? hlastb
      · rintro ⟨hlo, hhi⟩
        rcases hcases with ⟨_, -, -, -, hc, -⟩ | rfl | rfl
        · exact absurd (UInt16.le_trans hc hhi) (by decide)
        · exact absurd hlo (by decide)
        · exact absurd hhi (by decide)
    · change commonCsi (x :: y :: (b' ++ rest)) = none
      rw [commonCsi, if_neg hxy]

theorem commonCsi_complete {code : JsString} (h : Complete code) :
    commonCsi code = none ∨ ∀ rest, commonCsi (code ++ rest) = some code.length := by
  cases hc : commonCsi code with
  | none => exact .inl rfl
  | some n =>
    have hn : n = code.length := Option.some.inj ((commonCsi_extract hc).symm.trans h)
    subst hn
    refine .inr fun rest => ?_
    match code, h, hc with
    | e :: b :: t, h, hc =>
      have hstable : ∀ {s : JsString} {m : Nat}, commonCsiRest s = some m → commonCsiRest (s ++ rest) = some m := by
        intro s
        induction s with
        | nil => intro m hm; cases hm
        | cons d s ih =>
          intro m hm
          rw [cons_append]
          simp only [commonCsiRest] at hm ⊢
          split at hm
          · rename_i hd
            obtain ⟨k, hk, rfl⟩ := map_eq_some_iff.mp hm
            rw [if_pos hd, ih hk]
            rfl
          · rename_i hd
            rw [if_neg hd]
            exact hm
      simp only [commonCsi, cons_append] at hc ⊢
      split at hc
      · rename_i heb
        obtain ⟨m, hm, hlen⟩ := map_eq_some_iff.mp hc
        rw [if_pos heb, hstable hm]
        exact congrArg some hlen
      · cases hc

/-! ### What is left -/

/-- The sequences that the fast path leaves, and the units. -/
def afterFastPath (items : List Item) : List Item := items.filter fun
  | .code s => (commonCsi s).isNone
  | .unit _ => true

theorem dropAll_commonCsi {items : List Item} (h : Closed items)
    (hinside : ∀ code, .code code ∈ items → NoCsiInside code) :
    dropAll commonCsi (render items) = render (afterFastPath items) := by
  induction items with
  | nil => rfl
  | cons x items ih =>
    have hrest := ih (fun y hy => h y (mem_cons_of_mem _ hy))
      (fun code hc => hinside code (mem_cons_of_mem _ hc))
    rw [render_cons]
    cases x with
    | unit c =>
      have hc : c ≠ esc := h _ mem_cons_self
      change dropAll commonCsi (c :: render items) = c :: render (afterFastPath items)
      rw [dropAll_unit (commonCsi_head hc), hrest]
    | code s =>
      have hs : Complete s := h _ mem_cons_self
      rcases commonCsi_complete hs with hnone | hsome
      · have hkeep : afterFastPath (.code s :: items) = .code s :: afterFastPath items := by
          simp [afterFastPath, hnone]
        rw [hkeep, render_cons, Item.text, dropAll_append, hrest]
        intro a b hab hb
        refine hs.commonCsi_append hab hb ?_ _
        by_cases ha : a = []
        · rw [ha, nil_append] at hab
          rw [← hab]
          exact hnone
        · exact hinside s mem_cons_self a b hab ha
      · have hdrop : afterFastPath (.code s :: items) = afterFastPath items := by
          have := hsome []
          rw [append_nil] at this
          simp [afterFastPath, this]
        rw [hdrop, Item.text, dropAll_match (hsome _) hs.ne_nil, hrest]

theorem dropAll_escapeLength {items : List Item} (h : Closed items) :
    dropAll escapeLength (render items) = units items := by
  induction items with
  | nil => rfl
  | cons x items ih =>
    have hrest := ih fun y hy => h y (mem_cons_of_mem _ hy)
    rw [render_cons]
    cases x with
    | unit c =>
      have hc : c ≠ esc := h _ mem_cons_self
      change dropAll escapeLength (c :: render items) = c :: units items
      rw [dropAll_unit, hrest]
      rw [escapeLength, if_pos hc]
    | code s =>
      have hs : Complete s := h _ mem_cons_self
      change dropAll escapeLength (s ++ render items) = units items
      rw [dropAll_match _ hs.ne_nil, hrest]
      have hextract := hs.extract (render items)
      obtain ⟨-, -, hhead, -⟩ := extractAnsi_take hextract
      obtain ⟨c, t, hct⟩ := exists_cons_of_ne_nil
        (fun hnil : s ++ render items = [] => hs.ne_nil (append_eq_nil_iff.mp hnil).1)
      rw [hct] at hextract hhead ⊢
      rw [escapeLength, if_neg (not_not.mpr (Option.some.inj hhead)), hextract]

theorem units_afterFastPath (items : List Item) : units (afterFastPath items) = units items := by
  induction items with
  | nil => rfl
  | cons x items ih =>
    cases x with
    | unit c =>
      change c :: units (afterFastPath items) = c :: units items
      rw [ih]
    | code s =>
      have hcons : afterFastPath (.code s :: items) =
          if (commonCsi s).isNone then .code s :: afterFastPath items else afterFastPath items := by
        rw [afterFastPath, filter_cons]
        rfl
      rw [hcons]
      split
      · exact ih
      · exact ih

/-- Of text in which every ESC starts a complete sequence, with no CSI sequence inside another, the units are left. -/
theorem stripAnsi_units {s : JsString} (h : WellFormed s) (hinside : ∀ code, .code code ∈ scan s → NoCsiInside code) :
    stripAnsi s = units (scan s) := by
  have hclosed := h.closed
  have hfast : Closed (afterFastPath (scan s)) := fun x hx => hclosed x (mem_of_mem_filter hx)
  have hpass := dropAll_commonCsi hclosed hinside
  rw [render_scan] at hpass
  rw [stripAnsi, hpass, dropAll_escapeLength hfast, units_afterFastPath]

/-- Every ESC is the last unit, or a line terminator follows it. -/
def Inert : JsString → Prop
  | [] => True
  | c :: s => (c = esc → ∀ d ∈ s.head?, isLineTerminator d = true) ∧ Inert s

theorem inert_replaceFrom (skip : Nat) (s : JsString) :
    Inert (replaceFrom (fun t => (escapeLength t).map (·, [])) skip s) := by
  induction s generalizing skip with
  | nil => cases skip <;> trivial
  | cons c s ih =>
    cases skip with
    | succ skip => exact ih skip
    | zero =>
      rw [replaceFrom]
      cases hc : escapeLength (c :: s) with
      | some n => exact ih (n - 1)
      | none =>
        refine ⟨?_, ih 0⟩
        rintro rfl d hd
        rw [escapeLength, if_neg (by simp)] at hc
        split at hc
        · cases hc
        · split at hc
          · rename_i hterm
            cases s with
            | nil => cases hd
            | cons next s =>
              -- the line terminator is no ESC, so it stays
              have hterm : isLineTerminator next = true := hterm
              have hkeep : escapeLength (next :: s) = none := by
                rw [escapeLength, if_pos]
                rintro rfl
                exact absurd hterm (by decide)
              rw [replaceFrom, hkeep] at hd
              cases hd
              exact hterm
          · cases hc

theorem Inert.drop {a b : JsString} (h : Inert (a ++ b)) : Inert b := by
  induction a with
  | nil => exact h
  | cons c a ih => exact ih h.2

theorem dropAll_inert {f : JsString → Option Nat} {s : JsString} (h : Inert s)
    (hf : ∀ t, Inert t → f t = none) : dropAll f s = s := by
  have hall := @dropAll_append f s [] fun a b hab hb => by
    rw [append_nil]
    exact hf b (Inert.drop (hab ▸ h))
  simpa using hall

theorem Inert.commonCsi {t : JsString} (h : Inert t) : commonCsi t = none := by
  match t, h with
  | [], _ => rfl
  | [_], _ => rfl
  | e :: b :: rest, h =>
    rw [Tui.commonCsi, if_neg]
    rintro ⟨he, rfl⟩
    exact absurd (h.1 he 0x5b rfl) (by decide)

theorem extractAnsi_terminator {c next : UInt16} {rest : JsString} (h : isLineTerminator next = true) :
    extractAnsi (c :: next :: rest) = none := by
  have hnext : ∀ u : UInt16, isLineTerminator u = false → next ≠ u := by
    rintro u hu rfl
    rw [h] at hu
    cases hu
  have hosc : ¬ (next = 0x5d ∨ next = 0x5f) := by
    rintro (hn | hn)
    · exact hnext _ (by decide) hn
    · exact hnext _ (by decide) hn
  have hdcs : ¬ (next = 0x50 ∨ next = 0x5e ∨ next = 0x58) := by
    rintro (hn | hn | hn)
    · exact hnext _ (by decide) hn
    · exact hnext _ (by decide) hn
    · exact hnext _ (by decide) hn
  rw [extractAnsi, if_neg (hnext 0x5b (by decide)), if_neg hosc, if_neg hdcs]
  split
  · rfl
  · rfl

theorem Inert.escapeLength {t : JsString} (h : Inert t) : escapeLength t = none := by
  cases t with
  | nil => rfl
  | cons c s =>
    rw [Tui.escapeLength]
    split
    · rfl
    · rename_i hc
      have hterm := h.1 (not_not.mp hc)
      have hnone : extractAnsi (c :: s) = none := by
        cases s with
        | nil => rfl
        | cons next rest => exact extractAnsi_terminator (hterm next rfl)
      have hall : s.head?.all isLineTerminator = true := by
        cases s with
        | nil => rfl
        | cons next rest => exact hterm next rfl
      rw [hnone]
      dsimp only
      rw [if_pos hall]

theorem stripAnsi_inert (s : JsString) : Inert (stripAnsi s) := inert_replaceFrom 0 _

theorem stripAnsi_of_inert {s : JsString} (h : Inert s) : stripAnsi s = s := by
  rw [stripAnsi, dropAll_inert h fun t ht => ht.commonCsi, dropAll_inert h fun t ht => ht.escapeLength]

theorem stripAnsi_stripAnsi (s : JsString) : stripAnsi (stripAnsi s) = stripAnsi s :=
  stripAnsi_of_inert (stripAnsi_inert s)

end Tui
end RePrime
