import RePrime.Tui.CompositeSegments

/-!
# RePrime.Tui.CompositeColumns

What the columns of a composite line show.

* `cells`, `columns`: the columns of a line, each with its cluster and the style there.
* `Composited`: a line with the overlay in its range, and nothing moved.
* `Composition`, `composed_eq`: the columns of the composite, piece by piece.
* `compositeLineAt_shows`: the composite shows the line outside the overlay and the overlay inside.
-/

namespace RePrime
namespace Tui

open List
open Tabless
open Segment
open AnsiCodeTracker
open JsText (ofAscii)

variable (M : Metrics)

/-! ### Columns -/

structure Cell where
  glyph : JsString
  /-- The column of the cluster that this is. -/
  part : Nat
  style : AnsiCodeTracker
deriving DecidableEq

/-- A tab is written as three spaces. -/
def columnWidth (g : JsString) : Nat := if g = [9] then 3 else M.graphemeWidth g

def cells : AnsiCodeTracker → List Segment → List Cell
  | _, [] => []
  | t, .ansi code :: rest => cells (t.process code) rest
  | t, .grapheme g :: rest => (List.range (columnWidth M g)).map (fun k => ⟨g, k, t⟩) ++ cells t rest

/-- The columns of a line. -/
def columns (line : JsString) : List Cell := cells M .fresh (segments M line)

/-- The cluster of the cell at column `c` goes across the border. -/
def Cell.Cut (x : Cell) (c border : Nat) : Prop :=
  c - x.part < border ∧ border < c - x.part + columnWidth M x.glyph

/-- The cell shows column `c` of the line; a cluster that the border cuts, and the end of the line, show blanks. -/
def Cell.Shows (x : Cell) (line : List Cell) (c border : Nat) : Prop :=
  match (line)[c]? with
  | some y => (y.Cut M c border → x.glyph = blank) ∧ (¬ y.Cut M c border → x = y)
  | none => x.glyph = blank

/-- The line with the overlay in its range, and nothing moved. -/
structure Composited (base overlay result : List Cell) (startCol overlayWidth totalWidth : Nat) : Prop where
  width : result.length = totalWidth
  left : ∀ c x, c < startCol → result[c]? = some x → x.Shows M base c startCol
  inside : ∀ k x, k < overlayWidth → result[startCol + k]? = some x → x.Shows M overlay k overlayWidth
  right : ∀ c x, startCol + overlayWidth ≤ c → result[c]? = some x → x.Shows M base c (startCol + overlayWidth)

variable {M}

theorem cells_append (t : AnsiCodeTracker) (a b : List Segment) :
    cells M t (a ++ b) = cells M t a ++ cells M (styleAfter t a) b := by
  induction a generalizing t with
  | nil => rfl
  | cons x a ih =>
    cases x with
    | ansi code => exact ih _
    | grapheme g =>
      have hstyle : styleAfter t (.grapheme g :: a) = styleAfter t a := by
        have h := styleAfter_append t [.grapheme g] a
        rwa [styleAfter_grapheme] at h
      rw [cons_append, cells, ih, cells, hstyle, append_assoc]

variable {T : List Segment}

theorem length_cells (h : Tabless T) (t : AnsiCodeTracker) : (cells M t T).length = cols M T := by
  induction T generalizing t with
  | nil => rfl
  | cons x T ih =>
    have hT : Tabless T := fun g hg => h g (mem_cons_of_mem _ hg)
    cases x with
    | ansi code => exact ih hT _
    | grapheme g =>
      rw [cells, cols, length_append, length_map, length_range, ih hT, columnWidth, if_neg (h g mem_cons_self)]

variable {t : AnsiCodeTracker} {c : Nat} {x : Cell}

theorem cell_within (h : (cells M t T)[c]? = some x) :
    x.part ≤ c ∧ x.part < columnWidth M x.glyph ∧ c - x.part + columnWidth M x.glyph ≤ (cells M t T).length := by
  induction T generalizing t c with
  | nil => cases h
  | cons s T ih =>
    cases s with
    | ansi code => exact ih h
    | grapheme g =>
      rw [cells] at h ⊢
      rw [length_append, length_map, length_range]
      by_cases hc : c < columnWidth M g
      · rw [getElem?_append_left (by simpa using hc), getElem?_map, getElem?_range hc] at h
        cases h
        dsimp only
        omega
      · have hlen : ((List.range (columnWidth M g)).map fun k => (⟨g, k, t⟩ : Cell)).length = columnWidth M g := by
          simp
        rw [getElem?_append_right (by omega), hlen] at h
        have := ih h
        omega

theorem cell_neighbour {d : Nat}
    (h : (cells M t T)[c]? = some x) (hlo : c - x.part ≤ d) (hhi : d < c - x.part + columnWidth M x.glyph) :
    (cells M t T)[d]? = some { x with part := d - (c - x.part) } := by
  induction T generalizing t c d with
  | nil => cases h
  | cons s T ih =>
    cases s with
    | ansi code => exact ih h hlo hhi
    | grapheme g =>
      rw [cells] at h ⊢
      have hlen : ((List.range (columnWidth M g)).map fun k => (⟨g, k, t⟩ : Cell)).length = columnWidth M g := by
        simp
      by_cases hc : c < columnWidth M g
      · rw [getElem?_append_left (by omega), getElem?_map, getElem?_range hc] at h
        cases h
        dsimp only at hlo hhi ⊢
        rw [Nat.sub_self, Nat.zero_add] at hhi
        rw [getElem?_append_left (by omega), getElem?_map, getElem?_range hhi, Nat.sub_self]
        rfl
      · rw [getElem?_append_right (by omega), hlen] at h
        have hin := (cell_within h).1
        have hnext := ih h (d := d - columnWidth M g) (by omega) (by omega)
        rw [getElem?_append_right (by omega), hlen, hnext]
        congr 2
        omega

variable {g : JsString}

theorem cells_cluster {k : Nat} (hk : k < columnWidth M g) :
    (cells M t (.grapheme g :: T))[k]? = some ⟨g, k, t⟩ := by
  rw [cells, getElem?_append_left (by simpa using hk), getElem?_map, getElem?_range hk]
  rfl

theorem cells_nil_of_cols (ht : Tabless T) (h : cols M T = 0) (t : AnsiCodeTracker) : cells M t T = [] := by
  rw [← length_eq_zero_iff, length_cells ht, h]

theorem cells_blanks (hblank : M.graphemeWidth blank = 1) (t : AnsiCodeTracker) (n : Nat) :
    cells M t (blanks n) = List.replicate n ⟨blank, 0, t⟩ := by
  induction n with
  | zero => rfl
  | succ n ih =>
    have hwidth : columnWidth M blank = 1 := by
      rw [columnWidth, if_neg (by decide)]
      exact hblank
    change cells M t (.grapheme blank :: blanks n) = _
    rw [cells, ih, hwidth, replicate_succ]
    rfl

theorem Divisible.width_blank (h : Divisible M T) : M.graphemeWidth blank = 1 := by
  have hseg := h [] 1 ⟨[], T, rfl⟩
  have hsum := M.ascii (spaces 1) (by simp [spaces])
  change M.segment (spaces 1) = [blank] at hseg
  rw [hseg] at hsum
  simpa [spaces] using hsum

/-! ### The part that fits -/

/-- The part fills the columns, up to a cluster that does not fit. -/
structure Fills (M : Metrics) (width : Nat) (part rest : List Segment) : Prop where
  le : cols M part ≤ width
  full : cols M rest = 0 ∨ cols M part = width ∨
    ∃ D g later, rest = D ++ grapheme g :: later ∧ cols M D = 0 ∧ cols M part < width ∧
      width < cols M part + M.graphemeWidth g

variable {rest : List Segment}

theorem Fits.fills {width : Nat} {part : List Segment} (h : Fits (M := M) width part rest) :
    Fills M width part rest := by
  refine ⟨h.le, ?_⟩
  rcases h.full with rfl | h | ⟨g, later, rfl, hlt, hgt⟩
  · exact .inl rfl
  · exact .inr (.inl h)
  · exact .inr (.inr ⟨[], g, later, rfl, rfl, hlt, hgt⟩)

theorem Fills.shows {width : Nat} {part : List Segment} (h : Fills M width part rest)
    (ht : Tabless (part ++ rest)) (b : Cell) (hb : b.glyph = blank) (hc : c < width)
    (hx : (cells M .fresh part ++ List.replicate (width - cols M part) b)[c]? = some x) :
    x.Shows M (cells M .fresh (part ++ rest)) c width := by
  obtain ⟨htp, htr⟩ := append.mp ht
  have hlen := length_cells (M := M) htp .fresh
  rw [Cell.Shows, cells_append]
  by_cases hin : c < cols M part
  · rw [getElem?_append_left (by omega)] at hx ⊢
    rw [hx]
    have hwithin := cell_within hx
    refine ⟨fun hcut => ?_, fun _ => rfl⟩
    have hle := h.le
    obtain ⟨-, hgt⟩ := hcut
    omega
  · rw [getElem?_append_right (by omega), getElem?_replicate] at hx
    split at hx
    · cases hx
      rw [getElem?_append_right (by omega), hlen]
      rcases h.full with hzero | hfull | ⟨D, g, later, rfl, hD, hlt, hgt⟩
      · rw [cells_nil_of_cols htr hzero]
        exact hb
      · omega
      · obtain ⟨htD, htg⟩ := append.mp htr
        have hwidth : columnWidth M g = M.graphemeWidth g := if_neg (htg g mem_cons_self)
        rw [cells_append, cells_nil_of_cols htD hD, nil_append, cells_cluster (by omega)]
        refine ⟨fun _ => hb, fun hno => ?_⟩
        refine absurd ⟨?_, ?_⟩ hno
        · dsimp only
          omega
        · dsimp only
          omega
    · cases hx

/-! ### The line after the overlay -/

variable {X Y : List Segment} {column : Nat}

theorem end_le_of_border (ht : Tabless T)
    (hborder : ∀ x, (cells M .fresh T)[column]? = some x → x.part = 0) (hT : T = X ++ grapheme g :: Y)
    (hlt : cols M X < column) : cols M X + M.graphemeWidth g ≤ column := by
  by_contra hgt
  subst hT
  obtain ⟨htX, htg⟩ := append.mp ht
  have hwidth : columnWidth M g = M.graphemeWidth g := if_neg (htg g mem_cons_self)
  have hlen := length_cells (M := M) htX .fresh
  have hcell : (cells M .fresh (X ++ grapheme g :: Y))[column]? =
      some ⟨g, column - cols M X, styleAfter .fresh X⟩ := by
    rw [cells_append, getElem?_append_right (by omega), hlen, cells_cluster (by omega)]
  have hzero := hborder _ hcell
  dsimp only at hzero
  omega

theorem cols_le_of_early {P : List Segment} (ht : Tabless T)
    (hborder : ∀ x, (cells M .fresh T)[column]? = some x → x.part = 0) (hT : T = P ++ rest)
    (he : Early (M := M) column P) : cols M P ≤ column := by
  induction P using reverseRecOn generalizing rest with
  | nil => exact Nat.zero_le _
  | append_singleton P x ih =>
    have he' : Early (M := M) column P := by
      intro X g Y hX
      exact he X g (Y ++ [x]) (by rw [hX]; simp)
    have hP := @ih (x :: rest) (by rw [hT, append_assoc]; rfl) he'
    rw [cols_append]
    cases x with
    | ansi code => simpa [cols] using hP
    | grapheme g =>
      rcases he P g [] rfl with hlt | hzero
      · have hend := end_le_of_border ht hborder (by rw [hT, append_assoc]; rfl) hlt
        simpa [cols] using hend
      · simpa [cols, hzero] using hP

/-- The codes as segments. -/
def codeSegments (t : AnsiCodeTracker) : List Segment := t.codeItems.map fun
  | .code s => .ansi s
  | .unit c => .grapheme [c]

theorem codeSegments_items (t : AnsiCodeTracker) : (codeSegments t).flatMap items = t.codeItems := by
  rw [codeSegments]
  induction t.codeItems with
  | nil => rfl
  | cons x items ih =>
    rw [map_cons, flatMap_cons, ih]
    cases x with
    | code s => rfl
    | unit c => rfl

theorem textOf_codeSegments (t : AnsiCodeTracker) : textOf (codeSegments t) = t.getActiveCodes := by
  rw [textOf, codeSegments_items, render_codeItems]

theorem codeSegments_ansi (t : AnsiCodeTracker) : ∀ x ∈ codeSegments t, ∃ code, x = .ansi code := by
  intro x hx
  rw [codeSegments, codeItems, mem_map] at hx
  obtain ⟨y, hy, rfl⟩ := hx
  rw [mem_append] at hy
  rcases hy with hy | hy
  · rw [sgrItems] at hy
    split at hy
    · cases hy
    · rw [mem_singleton] at hy
      exact ⟨_, by rw [hy]⟩
  · rw [linkItems, mem_map] at hy
    obtain ⟨link, -, rfl⟩ := hy
    exact ⟨_, rfl⟩

theorem Divisible.of_ansi {A : List Segment} (hA : Divisible M A) {codes : List Segment}
    (h : ∀ x ∈ codes, ∃ code, x = .ansi code) : Divisible M (codes ++ A) := by
  induction codes with
  | nil => exact hA
  | cons x codes ih =>
    obtain ⟨code, rfl⟩ := h x mem_cons_self
    exact Divisible.join (X := []) (hA.infix_of ⟨[], A, rfl⟩) (ih fun y hy => h y (mem_cons_of_mem _ hy))

/-- A line that can be cut: its sequences are complete, its clusters stay what they are, and it has no tabs. -/
structure Cuttable (M : Metrics) (T : List Segment) : Prop where
  closed : Closed (T.flatMap items)
  divisible : Divisible M T
  tabless : Tabless T

theorem Cuttable.part (h : Cuttable M T) (hX : X <:+: T) : Cuttable M X := by
  refine ⟨?_, h.divisible.infix_of hX, ?_⟩
  · obtain ⟨l, r, rfl⟩ := hX
    have hc := h.closed
    rw [flatMap_append, flatMap_append, closed_append, closed_append] at hc
    exact hc.1.2
  · intro g hg
    exact h.tabless g (hX.subset hg)

/-- Where no cluster goes across the border, what is kept of the line shows it from there on. -/
theorem Extracted.columns {beforeEnd : Nat} {st : ExtractState}
    (h : Extracted (M := M) beforeEnd column T st) (hT : Cuttable M T)
    (hborder : ∀ x, (cells M .fresh T)[column]? = some x → x.part = 0) :
    ∃ W, st.after = textOf W ∧ Cuttable M W ∧ st.afterWidth = cols M W ∧
      cells M .fresh W = (cells M .fresh T).drop column := by
  rcases h.after with ⟨hnil, hwidth, he⟩ | ⟨P, A, Q, rfl, he, hP, hQ, htext, hwidth⟩
  · have hle := cols_le_of_early hT.tabless hborder (append_nil T).symm he
    refine ⟨[], hnil, hT.part ⟨[], T, rfl⟩, hwidth, ?_⟩
    rw [drop_eq_nil_of_le (by rw [length_cells hT.tabless]; exact hle)]
    rfl
  · have hcutP : Cuttable M P := hT.part ⟨[], A ++ Q, by simp⟩
    have hcutA : Cuttable M A := hT.part ⟨P, Q, rfl⟩
    have hcutQ : Cuttable M Q := hT.part ⟨P ++ A, [], by simp⟩
    have hle := cols_le_of_early hT.tabless hborder (append_assoc P A Q) he
    have hok : (styleAfter .fresh P).Ok := ok_fresh.run hcutP.closed
    have hrestores : (styleAfter .fresh P).Restores := restores_fresh.run hcutP.closed
    have hansi := codeSegments_ansi (styleAfter .fresh P)
    have hzero : cols M (codeSegments (styleAfter .fresh P)) = 0 := by
      refine cols_ansi fun x hx => ?_
      obtain ⟨code, rfl⟩ := hansi x hx
      rfl
    have htabless : Tabless (codeSegments (styleAfter .fresh P)) := by
      intro g hg
      obtain ⟨code, hcode⟩ := hansi _ hg
      cases hcode
    refine ⟨codeSegments (styleAfter .fresh P) ++ A, ?_, ⟨?_, ?_, ?_⟩, ?_, ?_⟩
    · rw [htext, textOf_append, textOf_codeSegments]
    · rw [flatMap_append, codeSegments_items]
      exact hok.closed_codeItems.append hcutA.closed
    · exact hcutA.divisible.of_ansi hansi
    · exact append.mpr ⟨htabless, hcutA.tabless⟩
    · rw [hwidth, cols_append, hzero, Nat.zero_add]
    · have hstyle : styleAfter .fresh (codeSegments (styleAfter .fresh P)) = styleAfter .fresh P := by
        rw [styleAfter, codeSegments_items]
        exact run_codeItems hok hrestores
      rw [cells_append, cells_nil_of_cols htabless hzero, hstyle, nil_append, cells_append, cells_append,
        cells_nil_of_cols hcutQ.tabless hQ, append_nil,
        drop_left' (by rw [length_cells hcutP.tabless]; omega)]

/-! ### The composite -/

theorem Cuttable.blanks (h : Cuttable M X) (n : Nat) : Cuttable M (X ++ blanks n) := by
  refine ⟨?_, h.divisible.blanks n, append.mpr ⟨h.tabless, ?_⟩⟩
  · rw [flatMap_append]
    refine h.closed.append fun x hx => ?_
    obtain ⟨y, hy, hxy⟩ := mem_flatMap.mp hx
    rw [eq_of_mem_replicate hy] at hxy
    rw [mem_singleton.mp hxy]
    exact (by decide : (0x20 : UInt16) ≠ esc)
  · intro g hg
    cases eq_of_mem_replicate hg
    decide

theorem Cuttable.join {code : JsString} (hX : Cuttable M X) (hY : Cuttable M Y)
    (hcode : Complete code) : Cuttable M (X ++ ansi code :: Y) := by
  refine ⟨?_, hX.divisible.join hY.divisible, append.mpr ⟨hX.tabless, ?_⟩⟩
  · rw [flatMap_append, flatMap_cons]
    refine hX.closed.append (Closed.append ?_ hY.closed)
    intro x hx
    rw [mem_singleton.mp hx]
    exact hcode
  · intro g hg
    exact hY.tabless g (by simpa using hg)

theorem Cuttable.segments (h : Cuttable M X) : segments M (textOf X) = X := by
  have hseg := @Divisible.segmented M X [] h.divisible 0
  exact segments_textOf h.closed (by simpa [Tui.blanks] using hseg)

def resetSgr : JsString := ofAscii "\x1b[0m"
def resetLink : JsString := ofAscii "\x1b]8;;\x07"

theorem complete_resetSgr : Complete resetSgr := by
  rw [Complete]
  decide

theorem complete_resetLink : Complete resetLink := by
  rw [Complete]
  decide

/-- Two pieces with the reset between them. -/
def resetJoin (X Y : List Segment) : List Segment := X ++ ansi resetSgr :: ([] ++ ansi resetLink :: Y)

theorem textOf_resetJoin (X Y : List Segment) : textOf (resetJoin X Y) = textOf X ++ segmentReset ++ textOf Y := by
  have hsplit : resetJoin X Y = X ++ ([ansi resetSgr] ++ ([ansi resetLink] ++ Y)) := rfl
  have hreset : segmentReset = resetSgr ++ resetLink := by decide
  rw [hsplit, textOf_append, textOf_append, textOf_append, textOf_ansi, textOf_ansi, hreset]
  simp only [append_assoc]

theorem Cuttable.resetJoin (hX : Cuttable M X) (hY : Cuttable M Y) : Cuttable M (resetJoin X Y) :=
  hX.join ((hX.part ⟨[], X, rfl⟩).join hY complete_resetLink) complete_resetSgr

theorem cells_resetJoin (X Y : List Segment) (t : AnsiCodeTracker) :
    cells M t (resetJoin X Y) = cells M t X ++ cells M .fresh Y := by
  rw [resetJoin, cells_append]
  -- the two codes make every state fresh
  rfl

/-- The cells of the pieces, each with its blanks. -/
structure Composition (base overlay : List Segment) (result : List Segment)
    (startCol overlayWidth totalWidth : Nat) : Prop where
  cuttable : Cuttable M result
  pieces : ∃ before rest shown hidden b₁ b₂ b₃, base = before ++ rest ∧ Fills M startCol before rest ∧
    overlay = shown ++ hidden ∧ Fills M overlayWidth shown hidden ∧
    b₁.glyph = blank ∧ b₂.glyph = blank ∧ b₃.glyph = blank ∧
    cells M .fresh result = (cells M .fresh before ++ List.replicate (startCol - cols M before) b₁) ++
      ((cells M .fresh shown ++ List.replicate (overlayWidth - cols M shown) b₂) ++
      ((cells M .fresh base).drop (startCol + overlayWidth) ++
        List.replicate (totalWidth - (startCol + overlayWidth) -
          ((cells M .fresh base).drop (startCol + overlayWidth)).length) b₃))

variable {startCol overlayWidth totalWidth : Nat}

theorem composed_eq {baseLine overlayLine : JsString} (hrange : startCol + overlayWidth ≤ totalWidth)
    (hbase : Cuttable M (segments M (normalizeTerminalOutput baseLine)))
    (hoverlay : Cuttable M (segments M overlayLine))
    (hwidth : (columns M (normalizeTerminalOutput baseLine)).length ≤ totalWidth)
    (hborder : ∀ x, (columns M (normalizeTerminalOutput baseLine))[startCol + overlayWidth]? = some x → x.part = 0) :
    ∃ result, composed M baseLine overlayLine startCol overlayWidth totalWidth = textOf result ∧
      Composition (M := M) (segments M (normalizeTerminalOutput baseLine)) (segments M overlayLine) result
        startCol overlayWidth totalWidth := by
  have hcols : cols M (segments M (normalizeTerminalOutput baseLine)) ≤ totalWidth := by
    rw [columns, length_cells hbase.tabless] at hwidth
    exact hwidth
  have hextract := extractSegments_spec (M := M) (normalizeTerminalOutput baseLine)
    (totalWidth - (startCol + overlayWidth)) (Nat.le_add_right startCol overlayWidth) (by omega)
  obtain ⟨W, hafter, hW, hafterWidth, hcells⟩ := hextract.columns hbase hborder
  obtain ⟨B, D, hBD, hbefore, hfull⟩ := hextract.before
  have hB : Cuttable M B := hbase.part (by rw [hBD]; exact ⟨[], D, rfl⟩)
  obtain ⟨before, late, hBsplit, hfits, hslice⟩ := sliceWithWidth_spec (M := M) (textOf B) startCol
  rw [hB.segments] at hBsplit
  obtain ⟨shown, hidden, hshown, hfits', hslice'⟩ := sliceWithWidth_spec (M := M) overlayLine overlayWidth
  have hcutBefore : Cuttable M before := hB.part (by rw [hBsplit]; exact ⟨[], late, rfl⟩)
  have hcutShown : Cuttable M shown := hoverlay.part (by rw [hshown]; exact ⟨[], hidden, rfl⟩)
  have hfills : Fills M startCol before (late ++ D) := by
    refine ⟨hfits.le, ?_⟩
    rcases hfits.full with rfl | hcol | ⟨g, later, rfl, hlt, hgt⟩
    · rw [append_nil] at hBsplit
      rcases hfull with hD | hB'
      · exact .inl hD
      · have hle := hfits.le
        exact .inr (.inl (by rw [← hBsplit] at hle ⊢; omega))
    · exact .inr (.inl hcol)
    · exact .inr (.inr ⟨[], g, later ++ D, rfl, rfl, hlt, hgt⟩)
  have hafterLen : cols M W = ((cells M .fresh (segments M (normalizeTerminalOutput baseLine))).drop
      (startCol + overlayWidth)).length := by
    rw [← hcells, length_cells hW.tabless]
  refine ⟨resetJoin (before ++ blanks (startCol - cols M before))
    (resetJoin (shown ++ blanks (overlayWidth - cols M shown))
      (W ++ blanks (totalWidth - (startCol + overlayWidth) - cols M W))), ?_, ?_, ?_⟩
  · rw [composed, hbefore, hslice, hslice', hafter, hafterWidth, max_eq_left hfits.le, max_eq_left hfits'.le,
      Nat.sub_sub totalWidth startCol overlayWidth]
    simp only [textOf_resetJoin, textOf_append, textOf_blanks, append_assoc]
  · exact (hcutBefore.blanks _).resetJoin ((hcutShown.blanks _).resetJoin (hW.blanks _))
  · have hblank := hbase.divisible.width_blank
    refine ⟨before, late ++ D, shown, hidden, ⟨blank, 0, styleAfter .fresh before⟩,
      ⟨blank, 0, styleAfter .fresh shown⟩, ⟨blank, 0, styleAfter .fresh W⟩, 
        by rw [hBD, hBsplit, append_assoc], hfills, hshown,
      hfits'.fills, rfl, rfl, rfl, ?_⟩
    rw [cells_resetJoin, cells_resetJoin, cells_append, cells_append, cells_append, cells_blanks hblank,
      cells_blanks hblank, cells_blanks hblank, hcells, hafterLen]

variable {result : List Segment}

theorem Composition.length {base overlay : List Segment}
    (h : Composition (M := M) base overlay result startCol overlayWidth totalWidth) (hbase : Tabless base)
    (hoverlay : Tabless overlay) (hrange : startCol + overlayWidth ≤ totalWidth)
    (hwidth : (cells M .fresh base).length ≤ totalWidth) : (cells M .fresh result).length = totalWidth := by
  obtain ⟨before, rest, shown, hidden, b₁, b₂, b₃, rfl, hfills, rfl, hfills', -, -, -, hcells⟩ := h.pieces
  have hle := hfills.le
  have hle' := hfills'.le
  rw [hcells]
  simp only [length_append, length_replicate, length_drop,
    length_cells (M := M) (append.mp hbase).1, length_cells (M := M) (append.mp hoverlay).1]
  omega

theorem Composition.composited {base overlay : List Segment}
    (h : Composition (M := M) base overlay result startCol overlayWidth totalWidth) (hbase : Tabless base)
    (hoverlay : Tabless overlay) (hrange : startCol + overlayWidth ≤ totalWidth)
    (hwidth : (cells M .fresh base).length ≤ totalWidth)
    (hborder : ∀ x, (cells M .fresh base)[startCol + overlayWidth]? = some x → x.part = 0) :
    Composited M (cells M .fresh base) (cells M .fresh overlay) (cells M .fresh result)
      startCol overlayWidth totalWidth := by
  have hlength := h.length hbase hoverlay hrange hwidth
  obtain ⟨before, rest, shown, hidden, b₁, b₂, b₃, rfl, hfills, rfl, hfills', hb₁, hb₂, hb₃, hcells⟩ := h.pieces
  have hlen₁ : (cells M .fresh before ++ List.replicate (startCol - cols M before) b₁).length = startCol := by
    have hle := hfills.le
    rw [length_append, length_replicate, length_cells (append.mp hbase).1]
    omega
  have hlen₂ : (cells M .fresh shown ++ List.replicate (overlayWidth - cols M shown) b₂).length = overlayWidth := by
    have hle := hfills'.le
    rw [length_append, length_replicate, length_cells (append.mp hoverlay).1]
    omega
  refine ⟨hlength, ?_, ?_, ?_⟩
  · intro c x hc hx
    rw [hcells, getElem?_append_left (by omega)] at hx
    exact hfills.shows hbase b₁ hb₁ hc hx
  · intro k x hk hx
    rw [hcells, getElem?_append_right (by omega), hlen₁, Nat.add_sub_cancel_left,
      getElem?_append_left (by omega)] at hx
    exact hfills'.shows hoverlay b₂ hb₂ hk hx
  · intro c x hc hx
    obtain ⟨j, rfl⟩ := Nat.exists_eq_add_of_le hc
    rw [hcells, getElem?_append_right (by omega), hlen₁, getElem?_append_right (by omega), hlen₂,
      show startCol + overlayWidth + j - startCol - overlayWidth = j by omega] at hx
    rw [Cell.Shows]
    by_cases hj : j < ((cells M .fresh (before ++ rest)).drop (startCol + overlayWidth)).length
    · rw [getElem?_append_left hj, getElem?_drop] at hx
      rw [hx]
      refine ⟨fun hcut => ?_, fun _ => rfl⟩
      obtain ⟨hlt, hgt⟩ := hcut
      have hzero := hborder _ (cell_neighbour hx (Nat.le_of_lt hlt) hgt)
      dsimp only at hzero
      omega
    · rw [getElem?_append_right (by omega), getElem?_replicate] at hx
      split at hx
      · cases hx
        rw [getElem?_eq_none (by rw [length_drop] at hj; omega)]
        exact hb₃
      · cases hx

theorem columns_cut (h : Cuttable M result) (hlen : (cells M .fresh result).length = totalWidth) :
    columns M (sliceByColumn M (textOf result) 0 totalWidth true) = cells M .fresh result := by
  obtain ⟨part, rest, hsplit, hfits, hslice⟩ := sliceWithWidth_spec (M := M) (textOf result) totalWidth
  rw [h.segments] at hsplit
  subst hsplit
  have hpart : Cuttable M part := h.part ⟨[], rest, rfl⟩
  have hrest : Cuttable M rest := h.part ⟨part, [], by simp⟩
  rw [length_cells h.tabless, cols_append] at hlen
  have hzero : cols M rest = 0 := by
    rcases hfits.full with rfl | hfull | ⟨g, later, rfl, hlt, hgt⟩
    · rfl
    · omega
    · rw [cols] at hlen
      omega
  rw [sliceByColumn, hslice, columns, hpart.segments, cells_append, cells_nil_of_cols hrest.tabless hzero,
    append_nil]

theorem tabless_normalized (line : JsString) : Tabless (segments M (normalizeTerminalOutput line)) := by
  rintro g hg rfl
  have hmem : (9 : UInt16) ∈ normalizeTerminalOutput line := by
    rw [← textOf_segments (M := M) (normalizeTerminalOutput line), textOf, render, mem_flatMap]
    exact ⟨.unit 9, mem_flatMap.mpr ⟨.grapheme [9], hg, by simp [items]⟩, by simp [Item.text]⟩
  rw [normalizeTerminalOutput, mem_flatMap] at hmem
  obtain ⟨c, -, hc⟩ := hmem
  rw [normalizeUnit] at hc
  split at hc
  · revert hc
    decide
  · rename_i hne
    split at hc
    · revert hc
      decide
    · split at hc
      · revert hc
        decide
      · rw [mem_singleton] at hc
        exact hne hc.symm

/-- An image is kept. Any other line is shown outside the overlay, with the overlay in its range and nothing moved,
when no cluster of the line goes across the end of the range. -/
theorem compositeLineAt_shows {baseLine overlayLine : JsString} {startCol overlayWidth totalWidth : Nat}
    (hrange : startCol + overlayWidth ≤ totalWidth)
    (hwidth : (columns M (normalizeTerminalOutput baseLine)).length ≤ totalWidth)
    (hbase : WellFormed (normalizeTerminalOutput baseLine)) (hoverlay : WellFormed overlayLine)
    (hdivisible : Divisible M (segments M (normalizeTerminalOutput baseLine)))
    (hdivisible' : Divisible M (segments M overlayLine)) (htabs : Tabless (segments M overlayLine))
    (hborder : ∀ x, (columns M (normalizeTerminalOutput baseLine))[startCol + overlayWidth]? = some x → x.part = 0) :
    if isImageLine baseLine then compositeLineAt M baseLine overlayLine startCol overlayWidth totalWidth = baseLine
    else Composited M (columns M (normalizeTerminalOutput baseLine)) (columns M overlayLine)
        (columns M (compositeLineAt M baseLine overlayLine startCol overlayWidth totalWidth))
        startCol overlayWidth totalWidth := by
  by_cases himage : isImageLine baseLine = true
  · rw [if_pos himage, compositeLineAt, if_pos himage]
  · have hT : Cuttable M (segments M (normalizeTerminalOutput baseLine)) :=
      ⟨segments_closed hbase, hdivisible, tabless_normalized baseLine⟩
    have hO : Cuttable M (segments M overlayLine) := ⟨segments_closed hoverlay, hdivisible', htabs⟩
    obtain ⟨result, htext, hcomposition⟩ := composed_eq hrange hT hO hwidth hborder
    have hshows := hcomposition.composited hT.tabless hO.tabless hrange hwidth hborder
    have hcolumns : columns M (compositeLineAt M baseLine overlayLine startCol overlayWidth totalWidth) =
        cells M .fresh result := by
      rw [compositeLineAt, if_neg himage]
      dsimp only
      rw [htext]
      split
      · rw [columns, hcomposition.cuttable.segments]
      · exact columns_cut hcomposition.cuttable hshows.width
    rw [if_neg himage, hcolumns]
    exact hshows

/-! ### Lines of single units -/

/-- Control characters have no column, wide characters two. -/
def unitWidth (c : UInt16) : Nat := if c < 0x20 then 0 else if c < 0x1100 then 1 else 2

def wideMetrics : Metrics where
  segment := fun s => s.map fun c => [c]
  graphemeWidth := fun g => (g.map unitWidth).sum
  segment_flatten := flatten_units
  segment_ne_nil := unit_ne_nil
  ascii := by
    intro s hs
    induction s with
    | nil => rfl
    | cons c s ih =>
      obtain ⟨hlo, hhi⟩ := hs c mem_cons_self
      have hwidth : unitWidth c = 1 := by
        rw [unitWidth, if_neg (UInt16.not_lt.mpr hlo), if_pos (UInt16.lt_of_le_of_lt hhi (by decide))]
      have hrest := ih fun d hd => hs d (mem_cons_of_mem _ hd)
      rw [map_cons, map_cons, sum_cons, hrest, map_singleton, sum_singleton, hwidth, length_cons]
      omega

theorem single_segments {run : JsString} {items : List Item}
    (h : .grapheme g ∈ wordSegments wideMetrics run items) : ∃ c, g = [c] := by
  have hrun : ∀ s : JsString, grapheme g ∈ (wideMetrics.segment s).map grapheme → ∃ c, g = [c] := by
    intro s hs
    obtain ⟨_, hmem, hg⟩ := mem_map.mp hs
    cases hg
    obtain ⟨c, -, rfl⟩ := mem_map.mp hmem
    exact ⟨c, rfl⟩
  induction items generalizing run with
  | nil => exact hrun run h
  | cons x items ih =>
    cases x with
    | code s =>
      rw [wordSegments, mem_append, mem_cons] at h
      rcases h with h | h | h
      · exact hrun run h
      · cases h
      · exact ih h
    | unit c => exact ih h

theorem divisible_wideMetrics (line : JsString) : Divisible wideMetrics (segments wideMetrics line) := by
  intro gs n hgs
  have hsingle : ∀ g ∈ gs, ∃ c, g = [c] := fun g hg =>
    single_segments (hgs.subset (mem_map_of_mem hg))
  clear hgs
  induction gs with
  | nil =>
    change (spaces n).map (fun c => [c]) = _
    rw [spaces, map_replicate]
    rfl
  | cons g gs ih =>
    obtain ⟨c, rfl⟩ := hsingle g mem_cons_self
    have hrest := ih fun g' hg' => hsingle g' (mem_cons_of_mem _ hg')
    rw [flatten_cons, append_assoc]
    change [c] :: wideMetrics.segment (gs.flatten ++ spaces n) = _
    rw [hrest]
    rfl

/-- A wide character at column 0 is cut by the overlay at column 1. -/
theorem compositeLineAt_wide :
    Composited wideMetrics (columns wideMetrics [0x4f60, 0x62, 0x63, 0x64]) (columns wideMetrics [0x78, 0x79])
      (columns wideMetrics (compositeLineAt wideMetrics [0x4f60, 0x62, 0x63, 0x64] [0x78, 0x79] 1 2 6)) 1 2 6 := by
  have hplain : ∀ x ∈ scan [0x4f60, 0x62, 0x63, 0x64], x ≠ .unit esc := by decide
  have hplain' : ∀ x ∈ scan [0x78, 0x79], x ≠ .unit esc := by decide
  have hoverlay : segments wideMetrics [0x78, 0x79] = [.grapheme [0x78], .grapheme [0x79]] := rfl
  have htabs : Tabless (segments wideMetrics [0x78, 0x79]) := by
    rintro g hg rfl
    rw [hoverlay] at hg
    simp at hg
  exact @compositeLineAt_shows wideMetrics [0x4f60, 0x62, 0x63, 0x64] [0x78, 0x79] 1 2 6 (by decide)
    (by decide) (fun c hc he => hplain _ hc (he ▸ rfl)) (fun c hc he => hplain' _ hc (he ▸ rfl))
    (divisible_wideMetrics _) (divisible_wideMetrics _) htabs (by decide)

/-- An image line gets no overlay. -/
theorem image_kept : (columns wideMetrics (normalizeTerminalOutput (ofAscii "\x1b_Ga=T;AAAA\x1b\\"))).length ≤ 1 ∧
      ¬ Composited wideMetrics (columns wideMetrics (normalizeTerminalOutput (ofAscii "\x1b_Ga=T;AAAA\x1b\\")))
        (columns wideMetrics (ofAscii "x"))
        (columns wideMetrics (compositeLineAt wideMetrics (ofAscii "\x1b_Ga=T;AAAA\x1b\\") (ofAscii "x") 0 1 1))
        0 1 1 := by
  refine ⟨by decide, fun h => ?_⟩
  have hwidth := h.width
  revert hwidth
  decide

end Tui
end RePrime
