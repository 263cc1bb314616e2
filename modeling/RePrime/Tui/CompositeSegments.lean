import RePrime.Tui.ActiveStyle
import RePrime.Tui.Composite
import RePrime.Tui.WrapLayout

/-!
# RePrime.Tui.CompositeSegments

The slices of a line as lists of its sequences and clusters.

* `Divisible`: pieces of the line, with spaces after them, have the clusters that they have in the line.
  `segments_textOf`: then the text of a piece is taken apart into the piece.
* `sliceWithWidth_spec`: a strict slice from the start of a line is the part that fits.
* `extractSegments_spec`: what is kept of the line before and after the overlay.
-/

namespace RePrime
namespace Tui

open List
open JsText (ofAscii)

variable (M : Metrics)

/-! ### Segments -/

/-- The columns as the code counts them. -/
def cols : List Segment → Nat
  | [] => 0
  | .ansi _ :: rest => cols rest
  | .grapheme g :: rest => M.graphemeWidth g + cols rest

def textOf (T : List Segment) : JsString := render (T.flatMap Segment.items)

def Segment.isAnsi : Segment → Bool
  | .ansi _ => true
  | .grapheme _ => false

open Segment

def Tabless (T : List Segment) : Prop := ∀ g, .grapheme g ∈ T → g ≠ [9]

@[simp] theorem textOf_nil : textOf [] = [] := rfl

@[simp] theorem textOf_append (a b : List Segment) : textOf (a ++ b) = textOf a ++ textOf b := by
  rw [textOf, flatMap_append, render_append]
  rfl

@[simp] theorem textOf_ansi (code : JsString) : textOf [.ansi code] = code := by
  simp [textOf, items, render, Item.text]

@[simp] theorem textOf_grapheme (g : JsString) : textOf [.grapheme g] = g := by
  rw [textOf]
  simp only [flatMap_cons, flatMap_nil, append_nil, items]
  exact render_units g

/-- The styles after a list of segments. -/
def styleAfter (t : AnsiCodeTracker) (T : List Segment) : AnsiCodeTracker := t.run (T.flatMap items)

theorem styleAfter_append (t : AnsiCodeTracker) (a b : List Segment) :
    styleAfter t (a ++ b) = styleAfter (styleAfter t a) b := by
  rw [styleAfter, flatMap_append, AnsiCodeTracker.run_append]
  rfl

theorem styleAfter_grapheme (t : AnsiCodeTracker) (g : JsString) : styleAfter t [.grapheme g] = t := by
  rw [styleAfter, flatMap_singleton]
  exact AnsiCodeTracker.run_units t g

variable {M}

@[simp] theorem cols_append (a b : List Segment) : cols M (a ++ b) = cols M a + cols M b := by
  induction a with
  | nil => simp [cols]
  | cons x a ih =>
    cases x with
    | ansi code => exact ih
    | grapheme g =>
      simp only [cons_append, cols, ih]
      omega

variable {T : List Segment}

theorem cols_ansi (h : ∀ x ∈ T, x.isAnsi = true) : cols M T = 0 := by
  induction T with
  | nil => rfl
  | cons x T ih =>
    have hx := h x mem_cons_self
    cases x with
    | ansi code => exact ih fun y hy => h y (mem_cons_of_mem _ hy)
    | grapheme g => cases hx

theorem Tabless.append {a b : List Segment} : Tabless (a ++ b) ↔ Tabless a ∧ Tabless b := by
  constructor
  · intro h
    exact ⟨fun g hg => h g (mem_append_left _ hg), fun g hg => h g (mem_append_right _ hg)⟩
  · rintro ⟨ha, hb⟩ g hg
    exact (mem_append.mp hg).elim (ha g) (hb g)

/-! ### Text that is taken apart again -/

variable (M)

/-- The clusters in each run of text are the ones the segmenter finds; `run` are those before. -/
def Segmented : List JsString → List Segment → Prop
  | run, [] => M.segment run.flatten = run
  | run, .ansi _ :: rest => M.segment run.flatten = run ∧ Segmented [] rest
  | run, .grapheme g :: rest => Segmented (run ++ [g]) rest

def blank : JsString := [0x20]

/-- Pieces of the text, with spaces after them, have the clusters that they have in it. -/
def Divisible (T : List Segment) : Prop :=
  ∀ gs n, gs.map grapheme <:+: T → M.segment (gs.flatten ++ spaces n) = gs ++ List.replicate n blank

variable {M}

variable {X : List Segment}

theorem Divisible.infix_of (h : Divisible M T) (hX : X <:+: T) : Divisible M X :=
  fun gs n hgs => h gs n (hgs.trans hX)

def blanks (n : Nat) : List Segment := List.replicate n (.grapheme blank)

theorem flatten_blank (n : Nat) : (List.replicate n blank).flatten = spaces n := by
  induction n with
  | zero => rfl
  | succ n ih => rw [replicate_succ, flatten_cons, ih]; rfl

theorem segmented_graphemes (run gs : List JsString) :
    Segmented M run (gs.map .grapheme) ↔ M.segment (run ++ gs).flatten = run ++ gs := by
  induction gs generalizing run with
  | nil => rw [append_nil]; exact Iff.rfl
  | cons g gs ih =>
    rw [map_cons, Segmented, ih]
    simp

theorem Divisible.segmented {run : List JsString} (h : Divisible M (run.map .grapheme ++ X))
    (n : Nat) : Segmented M run (X ++ blanks n) := by
  induction X generalizing run with
  | nil =>
    have hblanks : blanks n = (List.replicate n blank).map .grapheme := by
      rw [blanks, map_replicate]
    rw [nil_append, hblanks, segmented_graphemes, flatten_append, flatten_blank]
    exact h run n (by simp)
  | cons x X ih =>
    cases x with
    | ansi code =>
      refine ⟨?_, ih (h.infix_of ⟨run.map .grapheme ++ [ansi code], [], by simp⟩)⟩
      simpa [spaces] using h run 0 ⟨[], .ansi code :: X, by simp⟩
    | grapheme g => exact ih (by simpa using h)

theorem flatten_blanks (gs : List JsString) (k n : Nat) :
    (gs ++ List.replicate k blank).flatten ++ spaces n = gs.flatten ++ spaces (k + n) := by
  rw [flatten_append, flatten_blank, append_assoc, spaces, spaces, replicate_append_replicate]
  rfl

theorem Divisible.blanks (h : Divisible M X) (m : Nat) : Divisible M (X ++ blanks m) := by
  rintro gs n ⟨l, r, hgs⟩
  -- the clusters end in `X`, or go on with blanks
  have hcases : gs.map grapheme <:+: X ∨
      ∃ gs' k, gs = gs' ++ List.replicate k blank ∧ gs'.map grapheme <:+: X := by
    rw [append_assoc] at hgs
    rcases append_eq_append_iff.mp hgs with ⟨Z, hX, hZ⟩ | ⟨Z, hl, hblanks⟩
    · rcases append_eq_append_iff.mp hZ with ⟨W, hZW, -⟩ | ⟨W, hgsW, hW⟩
      · exact .inl ⟨l, W, by rw [hX, hZW, append_assoc]⟩
      · obtain ⟨gs₁, gs₂, rfl, hgs₁, hgs₂⟩ := map_eq_append_iff.mp hgsW
        have hrep : W = List.replicate W.length (.grapheme blank) := by
          refine eq_replicate_of_mem fun x hx => ?_
          have hmem : x ∈ Tui.blanks m := by
            rw [hW]
            exact mem_append_left _ hx
          exact eq_of_mem_replicate hmem
        refine .inr ⟨gs₁, W.length, ?_, ⟨l, [], by rw [hX, hgs₁, append_nil]⟩⟩
        congr 1
        refine eq_replicate_iff.mpr ⟨by rw [← hgs₂, length_map], fun g hg => ?_⟩
        have hmem : grapheme g ∈ W := by
          rw [← hgs₂]
          exact mem_map_of_mem hg
        rw [hrep] at hmem
        have := eq_of_mem_replicate hmem
        cases this
        rfl
    · refine .inr ⟨[], gs.length, ?_, ⟨[], X, rfl⟩⟩
      rw [nil_append]
      refine eq_replicate_iff.mpr ⟨rfl, fun g hg => ?_⟩
      have hmem : grapheme g ∈ Tui.blanks m := by
        rw [hblanks]
        simp [hg]
      have := eq_of_mem_replicate hmem
      cases this
      rfl
  rcases hcases with hX | ⟨gs', k, rfl, hX⟩
  · exact h gs n hX
  · rw [flatten_blanks, h gs' (k + n) hX, append_assoc, replicate_append_replicate]

theorem Divisible.join {Y : List Segment} {code : JsString} (hX : Divisible M X) (hY : Divisible M Y) :
    Divisible M (X ++ ansi code :: Y) := by
  rintro gs n ⟨l, r, hgs⟩
  have hnot : ansi code ∉ gs.map grapheme := by simp
  rw [append_assoc] at hgs
  rcases append_eq_append_iff.mp hgs with ⟨Z, hXZ, hZ⟩ | ⟨Z, -, hZ⟩
  · rcases append_eq_append_iff.mp hZ with ⟨W, hZW, -⟩ | ⟨W, hgsW, hW⟩
    · exact hX gs n ⟨l, W, by rw [hXZ, hZW, append_assoc]⟩
    · cases W with
      | nil => exact hX gs n ⟨l, [], by rw [hXZ, hgsW]; simp⟩
      | cons w W =>
        rw [cons_append] at hW
        cases hW
        exact absurd (hgsW ▸ by simp) hnot
  · cases Z with
    | nil =>
      cases gs with
      | nil => exact hX [] n ⟨[], X, rfl⟩
      | cons g gs => cases hZ
    | cons z Z =>
      rw [cons_append] at hZ
      cases hZ
      exact hY gs n ⟨Z, r, by simp⟩

theorem wordSegments_units (run : JsString) (g : JsString) (items : List Item) :
    wordSegments M run (g.map .unit ++ items) = wordSegments M (run ++ g) items := by
  induction g generalizing run with
  | nil => rw [append_nil]; rfl
  | cons c g ih =>
    rw [map_cons, cons_append, wordSegments, ih, append_assoc]
    rfl

theorem wordSegments_segmented {run : List JsString} (h : Segmented M run T) :
    wordSegments M run.flatten (T.flatMap items) = run.map .grapheme ++ T := by
  induction T generalizing run with
  | nil =>
    rw [flatMap_nil, wordSegments, h, append_nil]
  | cons x T ih =>
    cases x with
    | ansi code =>
      rw [flatMap_cons]
      change wordSegments M run.flatten (.code code :: T.flatMap items) = _
      have hrest := ih h.2
      rw [flatten_nil, map_nil, nil_append] at hrest
      rw [wordSegments, h.1, hrest]
    | grapheme g =>
      rw [flatMap_cons]
      change wordSegments M run.flatten (g.map .unit ++ T.flatMap items) = _
      have hrest := @ih (run ++ [g]) h
      rw [flatten_append, flatten_singleton] at hrest
      rw [wordSegments_units, hrest, map_append, append_assoc]
      rfl

theorem segments_textOf (hc : Closed (T.flatMap items)) (hs : Segmented M [] T) : segments M (textOf T) = T := by
  rw [segments, textOf, scan_render hc]
  exact wordSegments_segmented hs

theorem textOf_segments (line : JsString) : textOf (segments M line) = line := by
  rw [textOf, segments, wordSegments_items, map_nil, nil_append, render_scan]

theorem segments_closed {line : JsString} (h : WellFormed line) : Closed ((segments M line).flatMap items) := by
  rw [segments, wordSegments_items]
  exact h.closed

theorem textOf_blanks (n : Nat) : textOf (blanks n) = spaces n := by
  induction n with
  | zero => rfl
  | succ n ih =>
    have hsplit : blanks (n + 1) = [grapheme blank] ++ blanks n := rfl
    rw [hsplit, textOf_append, ih, textOf_grapheme]
    rfl

/-! ### A slice from the start of a line -/

/-- A part that fits into the columns, and why it ends there. -/
structure Fits (width : Nat) (part rest : List Segment) : Prop where
  le : cols M part ≤ width
  full : rest = [] ∨ cols M part = width ∨
    ∃ g later, rest = .grapheme g :: later ∧ cols M part < width ∧ width < cols M part + M.graphemeWidth g

theorem sliceSegments_spec {width : Nat} (T done : List Segment) (hlt : cols M done < width) :
    ∃ part rest, T = part ++ rest ∧ Fits (M := M) width (done ++ part) rest ∧
      (sliceSegments M 0 width true ⟨textOf done, cols M done, cols M done, []⟩ T).result = textOf (done ++ part) ∧
      (sliceSegments M 0 width true ⟨textOf done, cols M done, cols M done, []⟩ T).resultWidth =
        cols M (done ++ part) := by
  induction T generalizing done with
  | nil => exact ⟨[], [], rfl, ⟨by simp; omega, .inl rfl⟩, by simp [sliceSegments], by simp [sliceSegments]⟩
  | cons x T ih =>
    cases x with
    | ansi code =>
      have hcols : cols M (done ++ [ansi code]) = cols M done := by simp [cols]
      obtain ⟨part, rest, hsplit, hfits, hresult, hwidth⟩ := ih (done ++ [ansi code]) (by omega)
      refine ⟨.ansi code :: part, rest, by rw [hsplit]; rfl, ?_⟩
      have hstep : sliceAnsi 0 width ⟨textOf done, cols M done, cols M done, []⟩ code =
          ⟨textOf (done ++ [ansi code]), cols M (done ++ [ansi code]),
            cols M (done ++ [ansi code]), []⟩ := by
        rw [sliceAnsi, if_pos ⟨Nat.zero_le _, hlt⟩, hcols, textOf_append, textOf_ansi]
      rw [sliceSegments, hstep]
      rw [append_assoc] at hfits hresult hwidth
      exact ⟨hfits, hresult, hwidth⟩
    | grapheme g =>
      have hcols : cols M (done ++ [grapheme g]) = cols M done + M.graphemeWidth g := by simp [cols]
      rw [sliceSegments]
      by_cases hfit : cols M done + M.graphemeWidth g ≤ width
      · have hstep : sliceCluster M 0 width true ⟨textOf done, cols M done, cols M done, []⟩ g =
            ⟨textOf (done ++ [grapheme g]), cols M (done ++ [grapheme g]),
              cols M (done ++ [grapheme g]), []⟩ := by
          rw [sliceCluster, if_pos ⟨⟨Nat.zero_le _, hlt⟩, .inr hfit⟩, hcols, textOf_append, textOf_grapheme,
            append_nil]
        rw [hstep]
        dsimp only
        by_cases hfull : width ≤ cols M (done ++ [grapheme g])
        · rw [if_pos hfull]
          exact ⟨[.grapheme g], T, rfl, ⟨by omega, .inr (.inl (by omega))⟩, rfl, rfl⟩
        · rw [if_neg hfull]
          obtain ⟨part, rest, hsplit, hfits, hresult, hwidth⟩ := ih (done ++ [grapheme g]) (by omega)
          rw [append_assoc] at hfits hresult hwidth
          exact ⟨.grapheme g :: part, rest, by rw [hsplit]; rfl, hfits, hresult, hwidth⟩
      · -- the cluster is left out, and the loop ends
        have hstep : sliceCluster M 0 width true ⟨textOf done, cols M done, cols M done, []⟩ g =
            ⟨textOf done, cols M done, cols M done + M.graphemeWidth g, []⟩ := by
          rw [sliceCluster, if_neg]
          rintro ⟨-, h | h⟩
          · cases h
          · exact hfit h
        rw [hstep]
        dsimp only
        rw [if_pos (by omega)]
        refine ⟨[], .grapheme g :: T, rfl, ⟨by simp; omega, .inr (.inr ⟨g, T, rfl, by simp; omega⟩)⟩, ?_, ?_⟩
        · rw [append_nil]
        · rw [append_nil]

/-- A strict slice from the first column is the part of the line that fits. -/
theorem sliceWithWidth_spec (line : JsString) (width : Nat) :
    ∃ part rest, segments M line = part ++ rest ∧ Fits (M := M) width part rest ∧
      sliceWithWidth M line 0 width true = (textOf part, cols M part) := by
  rw [sliceWithWidth]
  by_cases hw : width = 0
  · rw [if_pos hw]
    exact ⟨[], segments M line, rfl, ⟨Nat.zero_le _, .inr (.inl hw.symm)⟩, rfl⟩
  · rw [if_neg hw, Nat.zero_add]
    obtain ⟨part, rest, hsplit, hfits, hresult, hwidth⟩ :=
      sliceSegments_spec (segments M line) [] (Nat.pos_of_ne_zero hw)
    refine ⟨part, rest, hsplit, hfits, ?_⟩
    exact Prod.ext hresult hwidth

/-! ### The line around the overlay -/

/-- The clusters that have a width start before the column. -/
def Early (column : Nat) (T : List Segment) : Prop :=
  ∀ X g Y, T = X ++ grapheme g :: Y → cols M X < column ∨ M.graphemeWidth g = 0

theorem Early.nil (column : Nat) : Early (M := M) column [] := by
  intro X g Y h
  cases X <;> cases h

variable {C : List Segment}

theorem early_append {column : Nat} {D : List Segment} (hC : Early (M := M) column C)
    (hD : ∀ X g Y, D = X ++ grapheme g :: Y → cols M C + cols M X < column ∨ M.graphemeWidth g = 0) :
    Early (M := M) column (C ++ D) := by
  intro X g Y h
  rcases append_eq_append_iff.mp h with ⟨Z, hX, hD'⟩ | ⟨Z, hC', hrest⟩
  · rw [hX, cols_append]
    exact hD Z g Y hD'
  · cases Z with
    | nil =>
      rw [append_nil] at hC'
      subst hC'
      simpa [cols] using hD [] g Y hrest.symm
    | cons z Z =>
      rw [cons_append] at hrest
      cases hrest
      exact hC X g Z hC'

theorem early_of_le {column : Nat} (h : cols M T ≤ column) : Early (M := M) column T := by
  rintro X g Y rfl
  simp only [cols_append, cols] at h
  omega

/-- What the loop knows when it has passed `C`. -/
structure Extracting (beforeEnd afterStart : Nat) (C : List Segment) (st : ExtractState) : Prop where
  col : st.currentCol = cols M C
  tracker : st.tracker = styleAfter .fresh C
  before : ∃ B D, C = B ++ D ∧ st.before = textOf B ∧
    (cols M C < beforeEnd → (∀ x ∈ D, x.isAnsi = true) ∧ st.pendingAnsiBefore = textOf D) ∧
    (beforeEnd ≤ cols M C → beforeEnd ≤ cols M B)
  after : (st.afterStarted = false ∧ st.after = [] ∧ st.afterWidth = 0 ∧ Early (M := M) afterStart C) ∨
    ∃ P A, C = P ++ A ∧ Early (M := M) afterStart P ∧ afterStart ≤ cols M P ∧ st.afterStarted = true ∧
      st.after = (styleAfter .fresh P).getActiveCodes ++ textOf A ∧ st.afterWidth = cols M A

theorem extracting_initial (beforeEnd afterStart : Nat) : Extracting (M := M) beforeEnd afterStart [] .initial where
  col := rfl
  tracker := rfl
  before := ⟨[], [], rfl, rfl, fun _ => ⟨by simp, rfl⟩, fun h => h⟩
  after := .inl ⟨rfl, rfl, rfl, Early.nil _⟩

variable {beforeEnd afterStart : Nat} {st : ExtractState}

theorem Extracting.code {afterEnd : Nat}
    (h : Extracting (M := M) beforeEnd afterStart C st) (hle : beforeEnd ≤ afterStart)
    (hopen : st.afterStarted = true → cols M C < afterEnd) (code : JsString) :
    Extracting (M := M) beforeEnd afterStart (C ++ [ansi code])
      (extractCode beforeEnd afterStart afterEnd st code) := by
  obtain ⟨hcol, htracker, ⟨B, D, hsplit, hbefore, hpending, hpast⟩, hafter⟩ := h
  have hcols : cols M (C ++ [ansi code]) = cols M C := by simp [cols]
  have hstyle : st.tracker.process code = styleAfter .fresh (C ++ [ansi code]) := by
    rw [styleAfter_append, ← htracker]
    rfl
  have hearly : Early (M := M) afterStart C → Early (M := M) afterStart (C ++ [ansi code]) := by
    intro he
    refine early_append he ?_
    intro X g Y hX
    cases X with
    | nil => cases hX
    | cons x X => cases X <;> cases hX
  have hsplit' : C ++ [ansi code] = B ++ (D ++ [ansi code]) := by rw [hsplit, append_assoc]
  rw [extractCode]
  dsimp only
  rw [hcol]
  by_cases hlt : cols M C < beforeEnd
  · rw [if_pos hlt]
    obtain ⟨hansi, hpend⟩ := hpending hlt
    refine ⟨hcols.symm, hstyle, ⟨B, D ++ [ansi code], hsplit', hbefore, fun _ => ⟨?_, ?_⟩, ?_⟩, ?_⟩
    · intro x hx
      rw [mem_append, mem_singleton] at hx
      rcases hx with hx | rfl
      · exact hansi x hx
      · rfl
    · dsimp only
      rw [hpend, textOf_append, textOf_ansi]
    · rw [hcols]
      intro hge
      omega
    · rcases hafter with ⟨hstarted, hnil, hwidth, he⟩ | ⟨P, A, hPA, -, hge, -⟩
      · exact .inl ⟨hstarted, hnil, hwidth, hearly he⟩
      · rw [hPA, cols_append] at hlt
        omega
  · rw [if_neg hlt]
    have hge : beforeEnd ≤ cols M C := by omega
    have hbefore' : ∃ B D, C ++ [ansi code] = B ++ D ∧ st.before = textOf B ∧
        (cols M (C ++ [ansi code]) < beforeEnd → (∀ x ∈ D, x.isAnsi = true) ∧ st.pendingAnsiBefore = textOf D) ∧
        (beforeEnd ≤ cols M (C ++ [ansi code]) → beforeEnd ≤ cols M B) :=
      ⟨B, D ++ [ansi code], hsplit', hbefore, fun h => by omega, fun _ => hpast hge⟩
    rcases hafter with ⟨hstarted, hnil, hwidth, he⟩ | ⟨P, A, hPA, he, hP, hstarted, htext, hwidth⟩
    · rw [if_neg (by rw [hstarted]; simp)]
      exact ⟨hcols.symm, hstyle, hbefore', .inl ⟨hstarted, hnil, hwidth, hearly he⟩⟩
    · have hcolP : afterStart ≤ cols M C := by
        rw [hPA, cols_append]
        omega
      rw [if_pos ⟨hcolP, hopen hstarted, hstarted⟩]
      refine ⟨hcols.symm, hstyle, hbefore', .inr ⟨P, A ++ [ansi code], ?_, he, hP, hstarted, ?_, ?_⟩⟩
      · rw [hPA, append_assoc]
      · dsimp only
        rw [htext, textOf_append, textOf_ansi, append_assoc]
      · rw [cols_append, ← hwidth]
        rfl

theorem Extracting.cluster {afterEnd : Nat} {g : JsString}
    (h : Extracting (M := M) beforeEnd afterStart C st) (hle : beforeEnd ≤ afterStart)
    (hopen : st.afterStarted = true → cols M C < afterEnd)
    (hwidth : cols M C + M.graphemeWidth g ≤ afterEnd) :
    Extracting (M := M) beforeEnd afterStart (C ++ [grapheme g])
      (extractCluster M beforeEnd afterStart afterEnd true st g) := by
  obtain ⟨hcol, htracker, ⟨B, D, hsplit, hbefore, hpending, hpast⟩, hafter⟩ := h
  have hcols : cols M (C ++ [grapheme g]) = cols M C + M.graphemeWidth g := by simp [cols]
  have hstyle : st.tracker = styleAfter .fresh (C ++ [grapheme g]) := by
    rw [styleAfter_append, styleAfter_grapheme]
    exact htracker
  have hearly : (cols M C < afterStart ∨ M.graphemeWidth g = 0) → Early (M := M) afterStart C →
      Early (M := M) afterStart (C ++ [grapheme g]) := by
    intro hg he
    refine early_append he ?_
    intro X g' Y hX
    cases X with
    | nil =>
      cases hX
      simpa [cols] using hg
    | cons x X => cases X <;> cases hX
  have hsplit' : C ++ [grapheme g] = B ++ (D ++ [grapheme g]) := by rw [hsplit, append_assoc]
  rw [extractCluster]
  dsimp only
  rw [hcol]
  by_cases hlt : cols M C < beforeEnd
  · rw [if_pos hlt]
    obtain ⟨hansi, hpend⟩ := hpending hlt
    refine ⟨hcols.symm, hstyle, ⟨C ++ [grapheme g], [], by simp, ?_, fun _ => ⟨by simp, rfl⟩, fun h => h⟩, ?_⟩
    · dsimp only
      rw [hbefore, hpend, hsplit, textOf_append, textOf_append, textOf_grapheme]
    · rcases hafter with ⟨hstarted, hnil, hwidth', he⟩ | ⟨P, A, hPA, -, hge, -⟩
      · exact .inl ⟨hstarted, hnil, hwidth', hearly (.inl (by omega)) he⟩
      · rw [hPA, cols_append] at hlt
        omega
  · rw [if_neg hlt]
    have hge : beforeEnd ≤ cols M C := by omega
    have hbefore' : ∃ B D, C ++ [grapheme g] = B ++ D ∧ st.before = textOf B ∧
        (cols M (C ++ [grapheme g]) < beforeEnd →
          (∀ x ∈ D, x.isAnsi = true) ∧ st.pendingAnsiBefore = textOf D) ∧
        (beforeEnd ≤ cols M (C ++ [grapheme g]) → beforeEnd ≤ cols M B) :=
      ⟨B, D ++ [grapheme g], hsplit', hbefore, fun h => by omega, fun _ => hpast hge⟩
    by_cases hin : afterStart ≤ cols M C ∧ cols M C < afterEnd ∧
        (true = false ∨ cols M C + M.graphemeWidth g ≤ afterEnd)
    · rw [if_pos hin]
      rcases hafter with ⟨hstarted, hnil, hzero, he⟩ | ⟨P, A, hPA, he, hP, hstarted, htext, hwidth'⟩
      · refine ⟨hcols.symm, hstyle, hbefore', .inr ⟨C, [.grapheme g], rfl, he, hin.1, rfl, ?_, ?_⟩⟩
        · rw [hstarted, hnil, ← htracker, textOf_grapheme]
          rfl
        · rw [hzero]
          simp [cols]
      · refine ⟨hcols.symm, hstyle, hbefore', .inr ⟨P, A ++ [grapheme g], ?_, he, hP, rfl, ?_, ?_⟩⟩
        · rw [hPA, append_assoc]
        · rw [hstarted, htext, textOf_append, textOf_grapheme]
          simp
        · rw [hwidth']
          simp [cols]
    · rw [if_neg hin]
      rcases hafter with ⟨hstarted, hnil, hzero, he⟩ | ⟨P, A, hPA, he, hP, hstarted, -⟩
      · refine ⟨hcols.symm, hstyle, hbefore', .inl ⟨hstarted, hnil, hzero, hearly ?_ he⟩⟩
        by_contra hno
        exact hin ⟨by omega, by omega, .inr hwidth⟩
      · have hcolP : afterStart ≤ cols M C := by
          rw [hPA, cols_append]
          omega
        exact absurd ⟨hcolP, hopen hstarted, .inr hwidth⟩ hin

/-- What was taken of the line, at the end of the loop. -/
structure Extracted (beforeEnd afterStart : Nat) (T : List Segment) (st : ExtractState) : Prop where
  before : ∃ B D, T = B ++ D ∧ st.before = textOf B ∧ (cols M D = 0 ∨ beforeEnd ≤ cols M B)
  after : (st.after = [] ∧ st.afterWidth = 0 ∧ Early (M := M) afterStart T) ∨
    ∃ P A Q, T = P ++ A ++ Q ∧ Early (M := M) afterStart P ∧ afterStart ≤ cols M P ∧ cols M Q = 0 ∧
      st.after = (styleAfter .fresh P).getActiveCodes ++ textOf A ∧ st.afterWidth = cols M A

theorem extractCode_started (beforeEnd afterStart afterEnd : Nat) (st : ExtractState) (code : JsString) :
    (extractCode beforeEnd afterStart afterEnd st code).afterStarted = st.afterStarted := by
  rw [extractCode]
  dsimp only
  split
  · rfl
  · split
    · rfl
    · rfl

theorem extractCluster_started (g : JsString) (h : st.afterStarted = false) :
    (extractCluster M beforeEnd afterStart afterStart true st g).afterStarted = false := by
  rw [extractCluster]
  dsimp only
  split
  · exact h
  · rw [if_neg (by omega)]
    exact h

theorem graphemeWidth_zero {Y : List Segment} {g : JsString} (h : cols M T = 0)
    (hT : T = X ++ grapheme g :: Y) : M.graphemeWidth g = 0 := by
  rw [hT, cols_append, cols] at h
  omega

theorem Extracting.stop {afterLen : Nat}
    (h : Extracting (M := M) beforeEnd afterStart C st) (hbefore : beforeEnd ≤ cols M C)
    (hzero : afterLen = 0 → st.afterStarted = false) (hpast : afterLen ≠ 0 → cols M T = 0)
    (htotal : cols M (C ++ T) ≤ afterStart + afterLen) : Extracted (M := M) beforeEnd afterStart (C ++ T) st := by
  obtain ⟨-, -, ⟨B, D, hsplit, htext, -, hfull⟩, hafter⟩ := h
  refine ⟨⟨B, D ++ T, by rw [hsplit, append_assoc], htext, .inr (hfull hbefore)⟩, ?_⟩
  by_cases hlen : afterLen = 0
  · rcases hafter with ⟨-, hnil, hwidth, -⟩ | ⟨_, _, -, -, -, hstarted, -⟩
    · exact .inl ⟨hnil, hwidth, early_of_le (by omega)⟩
    · rw [hzero hlen] at hstarted
      cases hstarted
  · have hT := hpast hlen
    rcases hafter with ⟨-, hnil, hwidth, he⟩ | ⟨P, A, hPA, he, hP, -, htext', hwidth⟩
    · exact .inl ⟨hnil, hwidth, early_append he fun X g Y hX => .inr (graphemeWidth_zero hT hX)⟩
    · exact .inr ⟨P, A, T, by rw [hPA], he, hP, hT, htext', hwidth⟩

theorem extractFrom_spec {afterLen : Nat} (T : List Segment)
    (h : Extracting (M := M) beforeEnd afterStart C st) (hle : beforeEnd ≤ afterStart)
    (hopen : st.afterStarted = true → cols M C < afterStart + afterLen)
    (hzero : afterLen = 0 → st.afterStarted = false) (htotal : cols M (C ++ T) ≤ afterStart + afterLen) :
    Extracted (M := M) beforeEnd afterStart (C ++ T)
      (extractFrom M beforeEnd afterStart afterLen true st T) := by
  induction T generalizing C st with
  | nil =>
    rw [extractFrom, append_nil]
    obtain ⟨-, -, ⟨B, D, hsplit, htext, hansi, hfull⟩, hafter⟩ := h
    refine ⟨⟨B, D, hsplit, htext, ?_⟩, ?_⟩
    · by_cases hlt : cols M C < beforeEnd
      · exact .inl (cols_ansi (hansi hlt).1)
      · exact .inr (hfull (by omega))
    · rcases hafter with ⟨-, hnil, hwidth, he⟩ | ⟨P, A, hPA, he, hP, -, htext', hwidth⟩
      · exact .inl ⟨hnil, hwidth, he⟩
      · exact .inr ⟨P, A, [], by rw [hPA, append_nil], he, hP, rfl, htext', hwidth⟩
  | cons x T ih =>
    cases x with
    | ansi code =>
      have hcols : cols M (C ++ [ansi code]) = cols M C := by simp [cols]
      have hstarted := extractCode_started beforeEnd afterStart (afterStart + afterLen) st code
      have hnext := ih (h.code hle hopen code) (by rw [hstarted, hcols]; exact hopen)
        (by rw [hstarted]; exact hzero) (by rw [append_assoc]; exact htotal)
      rw [append_assoc] at hnext
      exact hnext
    | grapheme g =>
      have hcols : cols M (C ++ [grapheme g]) = cols M C + M.graphemeWidth g := by simp [cols]
      have hsum : cols M (C ++ grapheme g :: T) = cols M C + M.graphemeWidth g + cols M T := by
        simp [cols]
        omega
      have hstep := h.cluster hle hopen (g := g) (by omega)
      have hzero' : afterLen = 0 →
          (extractCluster M beforeEnd afterStart (afterStart + afterLen) true st g).afterStarted = false := by
        rintro rfl
        exact extractCluster_started g (hzero rfl)
      have hassoc : C ++ grapheme g :: T = C ++ [grapheme g] ++ T := by simp
      rw [extractFrom, hassoc, hstep.col, hcols]
      by_cases hstop : if afterLen = 0 then beforeEnd ≤ cols M C + M.graphemeWidth g
          else afterStart + afterLen ≤ cols M C + M.graphemeWidth g
      · rw [if_pos hstop]
        refine hstep.stop ?_ hzero' ?_ (by rw [← hassoc]; exact htotal)
        · rw [hcols]
          split at hstop <;> omega
        · intro hlen
          rw [if_neg hlen] at hstop
          omega
      · rw [if_neg hstop]
        refine ih hstep ?_ hzero' (by rw [← hassoc]; exact htotal)
        intro hstarted
        by_cases hlen : afterLen = 0
        · rw [hzero' hlen] at hstarted
          cases hstarted
        · rw [if_neg hlen] at hstop
          omega

theorem extractSegments_spec (line : JsString) (afterLen : Nat) (hle : beforeEnd ≤ afterStart)
    (htotal : cols M (segments M line) ≤ afterStart + afterLen) :
    Extracted (M := M) beforeEnd afterStart (segments M line)
      (extractSegments M line beforeEnd afterStart afterLen true) :=
  extractFrom_spec (segments M line) (extracting_initial beforeEnd afterStart) hle (fun h => by cases h)
    (fun _ => rfl) htotal

end Tui
end RePrime
