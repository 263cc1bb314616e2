import Mathlib.Tactic.IntervalCases
import RePrime.Tui.ActiveCodes

/-!
# RePrime.Tui.ActiveStyle

The codes that a tracker emits put its state in force again.

* `AnsiCodeTracker.Restores`: the colors and the hyperlink are read back from the codes that are kept of them;
  `Restores.run`: every tracker that has read complete sequences has it.
* `run_codeItems`: reading `getActiveCodes` from the fresh state gives the state.
-/

namespace RePrime
namespace Tui

open List
open JsText (ofAscii)

/-! ### Parameters that are joined -/

theorem splitOn_append (sep : UInt16) (a b : JsString) :
    splitOn sep (a ++ sep :: b) = splitOn sep a ++ splitOn sep b := by
  induction a with
  | nil =>
    rw [nil_append]
    conv_lhs => rw [splitOn, if_pos rfl]
    rfl
  | cons c a ih =>
    rw [cons_append, splitOn]
    by_cases hc : c = sep
    · rw [if_pos hc, ih, splitOn, if_pos hc]
      rfl
    · rw [if_neg hc, ih, splitOn, if_neg hc]
      cases hs : splitOn sep a with
      | nil => exact absurd hs (splitOn_ne_nil sep a)
      | cons part parts => rfl

theorem splitOn_absent {sep : UInt16} {a : JsString} (ha : sep ∉ a) : splitOn sep a = [a] := by
  induction a with
  | nil => rfl
  | cons c a ih =>
    rw [mem_cons, not_or] at ha
    rw [splitOn, if_neg (Ne.symm ha.1), ih ha.2]

theorem splitOn_join {parts : List JsString} (hne : parts ≠ []) :
    splitOn semicolon (join parts) = parts.flatMap (splitOn semicolon) := by
  induction parts with
  | nil => exact absurd rfl hne
  | cons a parts ih =>
    cases parts with
    | nil => simp
    | cons b parts =>
      rw [join_cons_cons, splitOn_append, ih (cons_ne_nil _ _)]
      rfl

theorem flatMap_splitOn {parts : List JsString} (h : ∀ part ∈ parts, semicolon ∉ part) :
    parts.flatMap (splitOn semicolon) = parts := by
  induction parts with
  | nil => rfl
  | cons a parts ih =>
    rw [flatMap_cons, splitOn_absent (h a mem_cons_self), ih fun part hp => h part (mem_cons_of_mem _ hp)]
    rfl

namespace AnsiCodeTracker

/-! ### Colors -/

variable {n : Nat}

theorem processParts_skip (t : AnsiCodeTracker) {taken : List JsString} (h : taken.length = n)
    (rest : List JsString) : t.processParts n (taken ++ rest) = t.processParts 0 rest := by
  subst h
  induction taken with
  | nil => rfl
  | cons a taken ih => exact ih

variable {part color : JsString} {rest : List JsString}

theorem colorCode_again (h : colorCode part rest = some (color, n)) (hp : ∀ q ∈ part :: rest, semicolon ∉ q) :
    splitOn semicolon color = part :: rest.take n ∧ (rest.take n).length = n ∧
      ∀ more, colorCode part (rest.take n ++ more) = some (color, n) := by
  rw [colorCode.eq_def] at h
  split at h
  · rename_i mode a rest
    split at h
    · rename_i hmode
      cases h
      refine ⟨?_, rfl, ?_⟩
      · rw [splitOn_join (cons_ne_nil _ _), flatMap_splitOn fun q hq => hp q (by simp at hq ⊢; tauto)]
        rfl
      · intro more
        rw [colorCode.eq_def]
        exact if_pos hmode
    · rename_i hmode
      split at h
      · rename_i hmode'
        split at h
        · rename_i b c rest
          cases h
          refine ⟨?_, rfl, ?_⟩
          · rw [splitOn_join (cons_ne_nil _ _), flatMap_splitOn fun q hq => hp q (by simp at hq ⊢; tauto)]
            rfl
          · intro more
            rw [colorCode.eq_def]
            dsimp only [List.take, cons_append]
            rw [if_neg hmode, if_pos hmode']
        · cases h
      · cases h
  · cases h

def SetsFg (color : JsString) : Prop := ∀ (u : AnsiCodeTracker) (rest : List JsString),
  u.processParts 0 (splitOn semicolon color ++ rest) = ({ u with fgColor := some color }).processParts 0 rest

def SetsBg (color : JsString) : Prop := ∀ (u : AnsiCodeTracker) (rest : List JsString),
  u.processParts 0 (splitOn semicolon color ++ rest) = ({ u with bgColor := some color }).processParts 0 rest

theorem setsFg_colorCode (h : colorCode part rest = some (color, n)) (hp : ∀ q ∈ part :: rest, semicolon ∉ q)
    (hpart : parseInt part = some 38) : SetsFg color := by
  obtain ⟨hsplit, hlen, hagain⟩ := colorCode_again h hp
  intro u more
  rw [hsplit, cons_append, processParts, hpart]
  dsimp only
  rw [if_pos rfl, hagain]
  dsimp only
  exact processParts_skip _ hlen _

theorem setsBg_colorCode (h : colorCode part rest = some (color, n)) (hp : ∀ q ∈ part :: rest, semicolon ∉ q)
    (hpart : parseInt part = some 48) : SetsBg color := by
  obtain ⟨hsplit, hlen, hagain⟩ := colorCode_again h hp
  intro u more
  rw [hsplit, cons_append, processParts, hpart]
  dsimp only
  rw [if_neg (by decide), if_pos rfl, hagain]
  dsimp only
  exact processParts_skip _ hlen _

variable {code : Nat}

theorem splitOn_toString (h : code < 108) :
    splitOn semicolon (ofAscii (toString code)) = [ofAscii (toString code)] ∧
      parseInt (ofAscii (toString code)) = some code := by
  have hall : ∀ code < 108, splitOn semicolon (ofAscii (toString code)) = [ofAscii (toString code)] ∧
      parseInt (ofAscii (toString code)) = some code := by decide
  exact hall code h

theorem processParts_standard (h : code < 108 ∧ code ≠ 38 ∧ code ≠ 48) (u : AnsiCodeTracker)
    (rest : List JsString) : u.processParts 0 (splitOn semicolon (ofAscii (toString code)) ++ rest) =
      (u.standard code).processParts 0 rest := by
  obtain ⟨hsplit, hparse⟩ := splitOn_toString h.1
  rw [hsplit, cons_append, nil_append, processParts, hparse]
  dsimp only
  rw [if_neg h.2.1, if_neg h.2.2]

theorem setsFg_standard (h : (30 ≤ code ∧ code ≤ 37) ∨ (90 ≤ code ∧ code ≤ 97)) :
    SetsFg (ofAscii (toString code)) := by
  intro u rest
  rw [processParts_standard (by omega)]
  congr 1
  rcases h with ⟨hlo, hhi⟩ | ⟨hlo, hhi⟩ <;> interval_cases code <;> rfl

theorem setsBg_standard (h : (40 ≤ code ∧ code ≤ 47) ∨ (100 ≤ code ∧ code ≤ 107)) :
    SetsBg (ofAscii (toString code)) := by
  intro u rest
  rw [processParts_standard (by omega)]
  congr 1
  rcases h with ⟨hlo, hhi⟩ | ⟨hlo, hhi⟩ <;> interval_cases code <;> rfl

/-! ### The state that is restored -/

structure Restores (t : AnsiCodeTracker) : Prop where
  fg : ∀ color ∈ t.fgColor, SetsFg color
  bg : ∀ color ∈ t.bgColor, SetsBg color
  link : ∀ l ∈ t.activeHyperlink, parseOsc8Hyperlink l.format = some (some l)

theorem restores_fresh : fresh.Restores where
  fg := fun _ h => by cases h
  bg := fun _ h => by cases h
  link := fun _ h => by cases h

variable {t : AnsiCodeTracker}

variable (h : t.Restores)

include h

theorem Restores.reset : t.reset.Restores where
  fg := fun _ h => by cases h
  bg := fun _ h => by cases h
  link := h.link

theorem Restores.setFg (hc : SetsFg color) : Restores { t with fgColor := some color } where
  fg := by
    rintro s ⟨⟩
    exact hc
  bg := h.bg
  link := h.link

theorem Restores.setBg (hc : SetsBg color) : Restores { t with bgColor := some color } where
  fg := h.fg
  bg := by
    rintro s ⟨⟩
    exact hc
  link := h.link

theorem Restores.standard (code : Nat) : (t.standard code).Restores := by
  rw [AnsiCodeTracker.standard.eq_def]
  split
  · exact h.reset
  all_goals try exact ⟨h.fg, h.bg, h.link⟩
  · exact ⟨fun _ hs => (by cases hs), h.bg, h.link⟩
  · exact ⟨h.fg, fun _ hs => (by cases hs), h.link⟩
  · split
    · rename_i hcode
      exact h.setFg (setsFg_standard hcode)
    · split
      · rename_i hcode
        exact h.setBg (setsBg_standard hcode)
      · exact h

theorem Restores.processParts {parts : List JsString} {skip : Nat}
    (hp : ∀ q ∈ parts, semicolon ∉ q) : (t.processParts skip parts).Restores := by
  induction parts generalizing t skip with
  | nil => exact h
  | cons part rest ih =>
    have hrest : ∀ q ∈ rest, semicolon ∉ q := fun q hq => hp q (mem_cons_of_mem _ hq)
    cases skip with
    | succ skip => exact ih h hrest
    | zero =>
      rw [AnsiCodeTracker.processParts]
      split
      · exact ih h hrest
      · rename_i code hcode
        split
        · rename_i hfg
          rw [hfg] at hcode
          split
          · rename_i hcolor
            exact ih (h.setFg (setsFg_colorCode hcolor hp hcode)) hrest
          · exact ih (h.standard _) hrest
        · split
          · rename_i hbg
            rw [hbg] at hcode
            split
            · rename_i hcolor
              exact ih (h.setBg (setsBg_colorCode hcolor hp hcode)) hrest
            · exact ih (h.standard _) hrest
          · exact ih (h.standard _) hrest

theorem Restores.process {code : JsString} (hc : Complete code) : (t.process code).Restores := by
  rw [AnsiCodeTracker.process]
  split
  · rename_i link hlink
    refine ⟨h.fg, h.bg, ?_⟩
    rintro l rfl
    rw [parse_format hc hlink]
    exact hlink
  · split
    · exact h
    · split
      · exact h
      · split
        · exact h.reset
        · exact h.processParts fun q hq hmem => (mem_splitOn hq _ hmem).2 rfl

theorem Restores.run {items : List Item} (hc : Closed items) : (t.run items).Restores := by
  induction items generalizing t with
  | nil => exact h
  | cons x items ih =>
    have hrest : Closed items := fun y hy => hc y (mem_cons_of_mem _ hy)
    rw [run_cons]
    cases x with
    | code s => exact ih (h.process (hc _ mem_cons_self)) hrest
    | unit c => exact ih h hrest

/-! ### Reading the codes -/

omit h

theorem processParts_flag {u : AnsiCodeTracker} (s : JsString) (code : Nat) (put : Bool → AnsiCodeTracker) (b : Bool)
    (hs : splitOn semicolon s = [s] ∧ parseInt s = some code ∧ code < 38) (hoff : put false = u)
    (hon : u.standard code = put true) (rest : List JsString) :
    u.processParts 0 ((if b then [s] else []).flatMap (splitOn semicolon) ++ rest) =
      (put b).processParts 0 rest := by
  obtain ⟨hsplit, hparse, hlt⟩ := hs
  cases b with
  | false => rw [hoff]; rfl
  | true =>
    rw [if_pos rfl, flatMap_singleton, hsplit, cons_append, nil_append, processParts, hparse]
    dsimp only
    rw [if_neg (by omega), if_neg (by omega), hon]

theorem processParts_color {color : Option JsString} {u : AnsiCodeTracker}
    (put : Option JsString → AnsiCodeTracker) (hnone : put none = u)
    (hsome : ∀ c ∈ color, ∀ rest, u.processParts 0 (splitOn semicolon c ++ rest) = (put (some c)).processParts 0 rest)
    (rest : List JsString) :
    u.processParts 0 (color.toList.flatMap (splitOn semicolon) ++ rest) = (put color).processParts 0 rest := by
  cases color with
  | none => rw [hnone]; rfl
  | some c =>
    rw [Option.toList_some, flatMap_singleton]
    exact hsome c rfl rest

theorem Restores.processParts_codes (h : t.Restores) :
    fresh.processParts 0 (t.codes.flatMap (splitOn semicolon)) = { t with activeHyperlink := none } := by
  obtain ⟨bold, dim, italic, underline, blink, inverse, hidden, strikethrough, fg, bg, link⟩ := t
  simp only [codes, flatMap_append, append_assoc]
  rw [← append_nil (List.flatMap (splitOn semicolon) bg.toList)]
  refine (processParts_flag (ofAscii "1") 1
    (fun b => ⟨b, false, false, false, false, false, false, false, none, none, none⟩) bold
    (by decide) rfl rfl _).trans ?_
  refine (processParts_flag (ofAscii "2") 2
    (fun b => ⟨bold, b, false, false, false, false, false, false, none, none, none⟩) dim
    (by decide) rfl rfl _).trans ?_
  refine (processParts_flag (ofAscii "3") 3
    (fun b => ⟨bold, dim, b, false, false, false, false, false, none, none, none⟩) italic
    (by decide) rfl rfl _).trans ?_
  refine (processParts_flag (ofAscii "4") 4
    (fun b => ⟨bold, dim, italic, b, false, false, false, false, none, none, none⟩) underline
    (by decide) rfl rfl _).trans ?_
  refine (processParts_flag (ofAscii "5") 5
    (fun b => ⟨bold, dim, italic, underline, b, false, false, false, none, none, none⟩) blink
    (by decide) rfl rfl _).trans ?_
  refine (processParts_flag (ofAscii "7") 7
    (fun b => ⟨bold, dim, italic, underline, blink, b, false, false, none, none, none⟩) inverse
    (by decide) rfl rfl _).trans ?_
  refine (processParts_flag (ofAscii "8") 8
    (fun b => ⟨bold, dim, italic, underline, blink, inverse, b, false, none, none, none⟩) hidden
    (by decide) rfl rfl _).trans ?_
  refine (processParts_flag (ofAscii "9") 9
    (fun b => ⟨bold, dim, italic, underline, blink, inverse, hidden, b, none, none, none⟩) strikethrough
    (by decide) rfl rfl _).trans ?_
  refine (processParts_color
    (fun c => ⟨bold, dim, italic, underline, blink, inverse, hidden, strikethrough, c, none, none⟩)
    rfl (fun c hc rest => h.fg c hc _ rest) _).trans ?_
  exact processParts_color (fun c => ⟨bold, dim, italic, underline, blink, inverse, hidden, strikethrough, fg, c, none⟩)
    rfl (fun c hc rest => h.bg c hc _ rest) _

theorem sgrParams_sgr {params : JsString} (h : Params params) : sgrParams (sgr params) = some params := by
  have hdrop : (sgr params).drop 2 = params ++ [0x6d] := rfl
  change sgrParams (esc :: 0x5b :: (params ++ [0x6d])) = _
  have htake : (params ++ [0x6d]).takeWhile isParam = params := by
    rw [takeWhile_append_of_pos h]
    exact append_nil _
  have hrest : (params ++ [0x6d]).dropWhile isParam = [0x6d] := by
    rw [dropWhile_append_of_pos h]
    rfl
  rw [sgrParams, if_pos]
  · exact congrArg some htake
  · refine ⟨rfl, rfl, ?_⟩
    change ((params ++ [0x6d]).dropWhile isParam).head? = _
    rw [hrest]
    rfl

/-- The attributes are read from the fresh state as parameters, also when that is a reset. -/
theorem process_sgr {params : JsString} (h : Params params) :
    fresh.process (sgr params) = fresh.processParts 0 (splitOn semicolon params) := by
  have hosc : parseOsc8Hyperlink (sgr params) = none := by
    rw [parseOsc8Hyperlink, if_neg]
    rintro ⟨tail, htail⟩
    simp [osc8, sgr] at htail
  have hlast : (sgr params).getLast? = some 0x6d := getLast?_concat
  rw [process, hosc]
  dsimp only
  rw [if_neg (by simp [hlast]), sgrParams_sgr h]
  dsimp only
  split
  · rename_i hp
    rcases hp with rfl | rfl
    · rfl
    · rfl
  · rfl

theorem run_codeItems (hok : t.Ok) (h : t.Restores) : fresh.run t.codeItems = t := by
  have hsgr : fresh.run t.sgrItems = { t with activeHyperlink := none } := by
    have hcodes := h.processParts_codes
    rw [sgrItems]
    split
    · rename_i hnil
      rw [hnil] at hcodes
      exact hcodes
    · rename_i hne
      rw [run_cons, run_nil, next, process_sgr (Params.join hok.params_codes), splitOn_join hne, hcodes]
  rw [codeItems, run_append, hsgr, linkItems]
  cases hl : t.activeHyperlink with
  | none =>
    rw [Option.toList_none, map_nil, run_nil, ← hl]
  | some link =>
    rw [Option.toList_some, map_singleton, run_cons, run_nil, next, process, h.link link hl]
    dsimp only
    rw [← hl]

end AnsiCodeTracker
end Tui
end RePrime
