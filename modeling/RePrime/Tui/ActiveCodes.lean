import RePrime.Tui.Ansi

/-!
# RePrime.Tui.ActiveCodes

What a tracker emits is made of complete sequences: `getActiveCodes` at a line's start, `getLineEndReset` at its end.

* `parse_format`: a hyperlink is opened again by the sequence that opened it.
* `AnsiCodeTracker.Ok`: the colors are parameters and the hyperlink is a complete sequence; `Ok.run`.
* `codeItems`, `resetItems`: the emitted text as items.
-/

namespace RePrime
namespace Tui

open List
open JsText (ofAscii isSpace)
open AnsiCodeTracker (isParam sgrParams)

/-! ### Parameters -/

def Params (s : JsString) : Prop := ∀ c ∈ s, isParam c = true

theorem isParam_csi {c : UInt16} (h : isParam c = true) : 0x30 ≤ c ∧ c ≤ 0x3f := by
  simp only [isParam, Bool.or_eq_true, Bool.and_eq_true, decide_eq_true_eq, beq_iff_eq] at h
  rcases h with h | rfl
  · exact ⟨h.1, UInt16.le_trans h.2 (by decide)⟩
  · decide

theorem csiLength_final {s : JsString} {f : UInt16} (h : Params s) (hf : 0x40 ≤ f ∧ f ≤ 0x7e) :
    csiLength false (s ++ [f]) = some (s.length + 1) := by
  induction s with
  | nil =>
    have hparam : ¬ (0x30 ≤ f ∧ f ≤ 0x3f ∧ false = false) :=
      fun h => absurd (UInt16.le_trans hf.1 h.2.1) (by decide)
    have hintermediate : ¬ (0x20 ≤ f ∧ f ≤ 0x2f) := fun h => absurd (UInt16.le_trans hf.1 h.2) (by decide)
    rw [nil_append, csiLength, if_neg hparam, if_neg hintermediate, if_pos hf]
    rfl
  | cons c s ih =>
    obtain ⟨hlo, hhi⟩ := isParam_csi (h c mem_cons_self)
    have hs : Params s := fun d hd => h d (mem_cons_of_mem _ hd)
    rw [cons_append, csiLength, if_pos ⟨hlo, hhi, rfl⟩, ih hs]
    rfl

theorem csiLength_params {s : JsString} (h : Params s) : csiLength false (s ++ [0x6d]) = some (s.length + 1) :=
  csiLength_final h (by decide)

theorem complete_sgr {s : JsString} (h : Params s) : Complete (AnsiCodeTracker.sgr s) := by
  have hlen : (AnsiCodeTracker.sgr s).length = s.length + 1 + 2 := by
    simp [AnsiCodeTracker.sgr]
  rw [Complete, hlen]
  change (csiLength false (s ++ [0x6d])).map (· + 2) = _
  rw [csiLength_params h]
  rfl

@[simp] theorem join_nil : join [] = [] := rfl

@[simp] theorem join_singleton (a : JsString) : join [a] = a := by simp [join, List.intercalate]

@[simp] theorem join_cons_cons (a b : JsString) (parts : List JsString) :
    join (a :: b :: parts) = a ++ semicolon :: join (b :: parts) := by
  simp [join, List.intercalate]

theorem Params.join {parts : List JsString} (h : ∀ part ∈ parts, Params part) : Params (join parts) := by
  induction parts with
  | nil =>
    intro c hc
    cases hc
  | cons a parts ih =>
    have ha := h a mem_cons_self
    have hparts : ∀ part ∈ parts, Params part := fun part hp => h part (mem_cons_of_mem _ hp)
    cases parts with
    | nil => rwa [join_singleton]
    | cons b parts =>
      rw [join_cons_cons]
      intro c hc
      rcases mem_append.mp hc with hc | hc
      · exact ha c hc
      · rcases mem_cons.mp hc with rfl | hc
        · decide
        · exact ih hparts c hc

theorem mem_splitOn {sep : UInt16} {s part : JsString} (h : part ∈ splitOn sep s) :
    ∀ c ∈ part, c ∈ s ∧ c ≠ sep := by
  induction s generalizing part with
  | nil =>
    rw [splitOn, mem_singleton] at h
    rw [h]
    intro c hc
    cases hc
  | cons d s ih =>
    intro c hc
    rw [splitOn] at h
    split at h
    · rcases mem_cons.mp h with rfl | h
      · cases hc
      · have hmem := ih h c hc
        exact ⟨mem_cons_of_mem _ hmem.1, hmem.2⟩
    · rename_i hd
      split at h
      · rw [mem_singleton] at h
        rw [h, mem_singleton] at hc
        rw [hc]
        exact ⟨mem_cons_self, hd⟩
      · rename_i a parts heq
        rcases mem_cons.mp h with rfl | h
        · rcases mem_cons.mp hc with rfl | hc
          · exact ⟨mem_cons_self, hd⟩
          · have hmem := ih (by rw [heq]; exact mem_cons_self) c hc
            exact ⟨mem_cons_of_mem _ hmem.1, hmem.2⟩
        · have hmem := ih (by rw [heq]; exact mem_cons_of_mem _ h) c hc
          exact ⟨mem_cons_of_mem _ hmem.1, hmem.2⟩

theorem sgrParams_params {code s : JsString} (h : sgrParams code = some s) : Params s := by
  induction code with
  | nil => cases h
  | cons c code ih =>
    rw [sgrParams] at h
    split at h
    · cases h
      exact fun d hd => mem_takeWhile_imp hd
    · exact ih h

/-! ### Hyperlinks -/

theorem controlString_end {s : JsString} (h : controlStringLength true s = some s.length) :
    ∃ body, s = body ++ Hyperlink.terminator (decide (s.getLast? = some bel)) := by
  induction s with
  | nil => cases h
  | cons b rest ih =>
    rw [controlStringLength] at h
    split at h
    · rename_i hb
      have hrest : rest = [] := by
        rw [Option.some.injEq, length_cons] at h
        exact length_eq_zero_iff.mp (by omega)
      refine ⟨[], ?_⟩
      rw [hrest, hb.2]
      decide
    · split at h
      · rename_i hb
        obtain ⟨c, rfl⟩ : ∃ c, rest = [c] := by
          rw [Option.some.injEq, length_cons] at h
          exact length_eq_one_iff.mp (by omega)
        have hc : c = backslash := by simpa using hb.2
        refine ⟨[], ?_⟩
        rw [hb.1, hc]
        decide
      · obtain ⟨n, hn, hlen⟩ := Option.map_eq_some_iff.mp h
        rw [length_cons] at hlen
        have hrest : controlStringLength true rest = some rest.length := by
          rw [hn]
          congr 1
          omega
        obtain ⟨body, hbody⟩ := ih hrest
        have hlast : (b :: rest).getLast? = rest.getLast? := by
          cases rest with
          | nil => cases hn
          | cons c rest => rw [getLast?_cons_cons]
        refine ⟨b :: body, ?_⟩
        rw [hlast, cons_append, ← hbody]

/-- A hyperlink is opened again by the sequence that opened it. -/
theorem parse_format {code : JsString} {link : Hyperlink} (hc : Complete code)
    (h : parseOsc8Hyperlink code = some (some link)) : link.format = code := by
  rw [parseOsc8Hyperlink] at h
  split at h
  · rename_i hosc
    obtain ⟨rest, rfl⟩ := hosc
    obtain ⟨i, hi, hlink⟩ := Option.map_eq_some_iff.mp h
    have hrest : controlStringLength true rest = some rest.length := by
      rw [Complete] at hc
      change (controlStringLength true (0x38 :: semicolon :: rest)).map (· + 2) = some (rest.length + 4) at hc
      simpa [controlStringLength, bel, esc, semicolon] using hc
    obtain ⟨body, hbody⟩ := controlString_end hrest
    have hlast : (osc8 ++ rest).getLast? = rest.getLast? := by
      cases rest with
      | nil => cases hrest
      | cons c rest => exact getLast?_append_of_ne_nil _ (cons_ne_nil _ _)
    have hdrop : (osc8 ++ rest).drop 4 = rest := rfl
    rw [hlast, hdrop] at hi hlink
    have htake : rest.take (rest.length - (Hyperlink.terminator (decide (rest.getLast? = some bel))).length) =
        body := by
      conv_lhs => rw [hbody]
      rw [← hbody]
      have hlen : rest.length = body.length +
          (Hyperlink.terminator (decide (rest.getLast? = some bel))).length := by
        rw [← length_append, ← hbody]
      rw [hlen, Nat.add_sub_cancel, hbody]
      exact take_left' rfl
    rw [htake] at hi hlink
    split at hlink
    · cases hlink
    · rename_i hurl
      cases hlink
      obtain ⟨tail, htail⟩ := JsText.indexOf_some hi
      have hsplit : body = body.take i ++ semicolon :: body.drop (i + 1) := by
        have hd : body.drop (i + 1) = tail := by
          rw [← drop_drop, ← htail]
          rfl
        rw [hd]
        have := take_append_drop i body
        rw [← htail] at this
        exact this.symm
      have hformat : body.take i ++ semicolon :: body.drop (i + 1) ++
          Hyperlink.terminator (decide (rest.getLast? = some bel)) = rest := by
        rw [← hsplit, ← hbody]
      simp only [Hyperlink.format, append_assoc, singleton_append] at hformat ⊢
      rw [hformat]
  · cases h

theorem complete_close (byBel : Bool) : Complete (formatOsc8Close byBel) := by
  cases byBel <;> (rw [Complete]; decide)

/-! ### The tracker's invariant -/

namespace AnsiCodeTracker

structure Ok (t : AnsiCodeTracker) : Prop where
  fg : ∀ s ∈ t.fgColor, Params s
  bg : ∀ s ∈ t.bgColor, Params s
  link : ∀ l ∈ t.activeHyperlink, Complete l.format

theorem ok_fresh : fresh.Ok where
  fg := fun _ h => by cases h
  bg := fun _ h => by cases h
  link := fun _ h => by cases h

variable {t : AnsiCodeTracker}

theorem Ok.reset (h : t.Ok) : t.reset.Ok where
  fg := fun _ h => by cases h
  bg := fun _ h => by cases h
  link := h.link

theorem params_toString {code : Nat} (h : code < 108) : Params (ofAscii (toString code)) := by
  have hall : ∀ code < 108, (ofAscii (toString code)).all isParam = true := by decide
  exact all_eq_true.mp (hall code h)

theorem Ok.setFg (h : t.Ok) {color : JsString} (hc : Params color) : Ok { t with fgColor := some color } where
  fg := by
    rintro s ⟨⟩
    exact hc
  bg := h.bg
  link := h.link

theorem Ok.setBg (h : t.Ok) {color : JsString} (hc : Params color) : Ok { t with bgColor := some color } where
  fg := h.fg
  bg := by
    rintro s ⟨⟩
    exact hc
  link := h.link

theorem Ok.standard (h : t.Ok) (code : Nat) : (t.standard code).Ok := by
  rw [AnsiCodeTracker.standard.eq_def]
  split
  · exact h.reset
  all_goals try exact ⟨h.fg, h.bg, h.link⟩
  · exact ⟨fun _ hs => (by cases hs), h.bg, h.link⟩
  · exact ⟨h.fg, fun _ hs => (by cases hs), h.link⟩
  · split
    · exact h.setFg (params_toString (by omega))
    · split
      · exact h.setBg (params_toString (by omega))
      · exact h

theorem colorCode_params {part color : JsString} {rest : List JsString} {n : Nat}
    (hp : ∀ q ∈ part :: rest, Params q) (h : colorCode part rest = some (color, n)) : Params color := by
  rw [colorCode.eq_def] at h
  split at h
  · split at h
    · cases h
      exact Params.join fun q hq => hp q (by simp at hq ⊢; tauto)
    · split at h
      · split at h
        · cases h
          exact Params.join fun q hq => hp q (by simp at hq ⊢; tauto)
        · cases h
      · cases h
  · cases h

theorem Ok.processParts {parts : List JsString} {skip : Nat} (h : t.Ok) (hp : ∀ q ∈ parts, Params q) :
    (t.processParts skip parts).Ok := by
  induction parts generalizing t skip with
  | nil => exact h
  | cons part rest ih =>
    have hrest : ∀ q ∈ rest, Params q := fun q hq => hp q (mem_cons_of_mem _ hq)
    cases skip with
    | succ skip => exact ih h hrest
    | zero =>
      rw [AnsiCodeTracker.processParts]
      split
      · exact ih h hrest
      · split
        · split
          · rename_i hcolor
            exact ih (h.setFg (colorCode_params hp hcolor)) hrest
          · exact ih (h.standard _) hrest
        · split
          · split
            · rename_i hcolor
              exact ih (h.setBg (colorCode_params hp hcolor)) hrest
            · exact ih (h.standard _) hrest
          · exact ih (h.standard _) hrest

theorem Ok.process (h : t.Ok) {code : JsString} (hc : Complete code) : (t.process code).Ok := by
  rw [AnsiCodeTracker.process]
  split
  · rename_i link hlink
    refine ⟨h.fg, h.bg, ?_⟩
    rintro l rfl
    rw [parse_format hc hlink]
    exact hc
  · split
    · exact h
    · split
      · exact h
      · rename_i params hparams
        split
        · exact h.reset
        · refine h.processParts ?_
          intro q hq c hcq
          exact sgrParams_params hparams c (mem_splitOn hq c hcq).1

theorem Ok.run (h : t.Ok) {items : List Item} (hc : Closed items) : (t.run items).Ok := by
  induction items generalizing t with
  | nil => exact h
  | cons x items ih =>
    have hrest : Closed items := fun y hy => hc y (mem_cons_of_mem _ hy)
    rw [run_cons]
    cases x with
    | code s => exact ih (h.process (hc _ mem_cons_self)) hrest
    | unit c => exact ih h hrest

/-! ### What is emitted -/

def sgrItems (t : AnsiCodeTracker) : List Item := if t.codes = [] then [] else [.code (sgr (join t.codes))]

def linkItems (t : AnsiCodeTracker) : List Item := t.activeHyperlink.toList.map fun link => .code link.format

/-- `getActiveCodes` as items. -/
def codeItems (t : AnsiCodeTracker) : List Item := t.sgrItems ++ t.linkItems

/-- `getLineEndReset` as items. -/
def resetItems (t : AnsiCodeTracker) : List Item :=
  (if t.underline then [.code (sgr (ofAscii "24"))] else []) ++
    t.activeHyperlink.toList.map fun link => .code (formatOsc8Close link.byBel)

theorem render_codeItems (t : AnsiCodeTracker) : render t.codeItems = t.getActiveCodes := by
  rw [codeItems, render_append, getActiveCodes, sgrItems, linkItems]
  congr 1
  · split
    · rfl
    · simp [render, Item.text]
  · cases t.activeHyperlink with
    | none => rfl
    | some link => simp [render, Item.text]

theorem render_resetItems (t : AnsiCodeTracker) : render t.resetItems = t.getLineEndReset := by
  rw [resetItems, render_append, getLineEndReset]
  congr 1
  · split
    · simp [render, Item.text]
    · rfl
  · cases t.activeHyperlink with
    | none => rfl
    | some link => simp [render, Item.text]

theorem params_standard (s : String) (h : (ofAscii s).all isParam = true := by decide) : Params (ofAscii s) :=
  all_eq_true.mp h

theorem Ok.params_codes (h : t.Ok) : ∀ q ∈ t.codes, Params q := by
  intro q hq
  simp only [codes, mem_append, Option.mem_toList] at hq
  rcases hq with (((((((((hq | hq) | hq) | hq) | hq) | hq) | hq) | hq) | hq) | hq)
  case inl.inr => exact h.fg q hq
  case inr => exact h.bg q hq
  all_goals
    split at hq
    · rw [mem_singleton] at hq
      rw [hq]
      exact params_standard _
    · cases hq

theorem Ok.closed_codeItems (h : t.Ok) : Closed t.codeItems := by
  refine Closed.append ?_ ?_
  · intro x hx
    rw [sgrItems] at hx
    split at hx
    · cases hx
    · rw [mem_singleton] at hx
      rw [hx]
      exact complete_sgr (Params.join h.params_codes)
  · intro x hx
    obtain ⟨link, hlink, rfl⟩ := mem_map.mp hx
    exact h.link link (Option.mem_toList.mp hlink)

theorem closed_resetItems (t : AnsiCodeTracker) : Closed t.resetItems := by
  refine Closed.append ?_ ?_
  · intro x hx
    split at hx
    · rw [mem_singleton] at hx
      rw [hx]
      exact complete_sgr (params_standard _)
    · cases hx
  · intro x hx
    obtain ⟨link, -, rfl⟩ := mem_map.mp hx
    exact complete_close _

@[simp] theorem units_codeItems (t : AnsiCodeTracker) : units t.codeItems = [] := by
  rw [codeItems, sgrItems, linkItems]
  split <;> cases t.activeHyperlink <;> rfl

@[simp] theorem units_resetItems (t : AnsiCodeTracker) : units t.resetItems = [] := by
  rw [resetItems]
  split <;> cases t.activeHyperlink <;> rfl

end AnsiCodeTracker

end Tui
end RePrime
