import RePrime.Tui.WrapContent

/-!
# RePrime.Tui.WrapBounds

When the lines of `wrapTextWithAnsi` are no wider than the width, and that they show what the text shows.

* `Additive`: a text on which widths of pieces add up and a trim does not make a line wider.
* `Overflows`: a round that closes a line too wide: a run of spaces that does not fit is open, a long word follows
  and the reset at the line's end keeps the spaces from the trim.
* `bounded_iff`: the lines are within the width exactly when no round is one of these.
-/

namespace RePrime
namespace Tui

open List
open AnsiCodeTracker
open JsText (isSpace newline ofAscii)

variable (M : Metrics) (width : Nat)

/-! ### Pieces -/

def Segment.piece : Segment → Option JsString
  | .ansi _ => none
  | .grapheme g => some g

open Segment

/-- The graphemes of a token, as `breakLongWord` takes them. -/
def tokenPieces (token : JsString) : List JsString := (wordSegments M [] (scan token)).filterMap piece

def pieces (line : JsString) : List JsString := (splitIntoTokensWithAnsi line).flatMap (tokenPieces M)

structure Additive (ps : List JsString) : Prop where
  sum : ∀ qs, qs <:+: ps → visibleWidth M qs.flatten = (qs.map (visibleWidth M)).sum
  trim : ∀ qs, qs <:+: ps → ∀ kept blanks, qs.flatten = kept ++ blanks → (∀ c ∈ blanks, isSpace c = true) →
    visibleWidth M kept ≤ visibleWidth M qs.flatten

/-! ### The round that goes wrong -/

/-- A long word closes a line as it is, and the open line is too wide and ends with a reset. -/
def Overflows (st : WrapState) (token : JsString) : Prop :=
  (visibleWidth M token > width ∧ isBlank token = false) ∧ st.currentVisibleLength > width ∧
    st.tracker.getLineEndReset ≠ []

/-- No round of the loop over the tokens of a line is such a round. -/
def Flows (line : JsString) : Prop :=
  visibleWidth M line > width → ∀ before token after, splitIntoTokensWithAnsi line = before ++ token :: after →
    ¬ Overflows M width (before.foldl (wrapToken M width) .start) token

variable {M} {width}

theorem units_segments (segs : List Segment) :
    units (segs.flatMap items) = (segs.filterMap piece).flatten := by
  induction segs with
  | nil => rfl
  | cons seg segs ih =>
    rw [flatMap_cons, units_append, ih]
    cases seg with
    | ansi s => rfl
    | grapheme g => exact congrArg (· ++ _) (units_map_unit g)

variable {tk : List Item}

theorem flatten_tokenPieces (M : Metrics) (h : Closed tk) : (tokenPieces M (render tk)).flatten = units tk := by
  have hsegs := units_segments (wordSegments M [] tk)
  rw [wordSegments_items] at hsegs
  rw [tokenPieces, scan_render h, ← hsegs]
  rfl

theorem trimItems_append_blanks {a b : List Item} (hb : Blanks b) : trimItems (a ++ b) = trimItems a := by
  induction b using reverseRecOn with
  | nil => rw [append_nil]
  | append_singleton b x ih =>
    rw [← append_assoc, trimItems_concat, if_pos (hb x (mem_append_right _ mem_cons_self))]
    exact ih fun y hy => hb y (mem_append_left _ hy)

/-! ### The open row -/

/-- The open row holds pieces of the text that come one after the other, and `rest` is to come. Its column is their
width, and it fits once it is trimmed. -/
structure Layout.Filled (M : Metrics) (width : Nat) (ps rest : List JsString) (l : Layout) : Prop where
  ok : l.Ok
  pieces : ∃ before cur, ps = before ++ cur ++ rest ∧ units l.block = cur.flatten ∧
    l.column = (cur.map (visibleWidth M)).sum
  fits : visibleWidth M (units (trimItems l.block)) ≤ width

namespace Layout.Filled

variable {ps qs rest : List JsString} {l : Layout}

theorem width_eq (h : l.Filled M width ps rest) (hA : Additive M ps) :
    visibleWidth M (units l.block) = l.column := by
  obtain ⟨before, cur, hps, hunits, hcol⟩ := h.pieces
  rw [hunits, hcol, hA.sum cur ⟨before, rest, hps.symm⟩]

theorem restart (h : l.Filled M width ps (qs ++ rest)) {l' : Layout} (hok : l'.Ok) (hblock : l'.block = [])
    (hcol : l'.column = 0) : l'.Filled M width ps rest := by
  obtain ⟨before, cur, hps, -, -⟩ := h.pieces
  refine ⟨hok, ⟨before ++ cur ++ qs, [], ?_, ?_, hcol⟩, ?_⟩
  · rw [hps]
    simp
  · rw [hblock]
    rfl
  · rw [hblock]
    exact Nat.zero_le _

theorem endRow (h : l.Filled M width ps rest) (kept : List Item) : (l.endRow kept).Filled M width ps rest :=
  restart (show l.Filled M width ps ([] ++ rest) from h) (h.ok.endRow kept) rfl rfl

theorem add (h : l.Filled M width ps (qs ++ rest)) (hA : Additive M ps) (more : List Item) (column : Nat)
    (hc : Closed more) (hunits : units more = qs.flatten) (hcol : column = l.column + (qs.map (visibleWidth M)).sum)
    (hfit : column ≤ width ∨ Blanks more) :
    Layout.Filled M width ps rest { l with block := l.block ++ more, column := column } := by
  obtain ⟨before, cur, hps, hcur, hsum⟩ := h.pieces
  have hok : Layout.Ok { l with block := l.block ++ more, column := column } :=
    ⟨h.ok.start, h.ok.block.append hc⟩
  have hpieces : ps = before ++ (cur ++ qs) ++ rest := by
    rw [hps]
    simp
  have hblock : units (l.block ++ more) = (cur ++ qs).flatten := by
    rw [units_append, hcur, hunits, flatten_append]
  have hwidth : column = ((cur ++ qs).map (visibleWidth M)).sum := by
    rw [hcol, hsum, map_append, sum_append]
  refine ⟨hok, ⟨before, cur ++ qs, hpieces, hblock, hwidth⟩, ?_⟩
  change visibleWidth M (units (trimItems (l.block ++ more))) ≤ width
  rcases hfit with hfit | hblank
  · obtain ⟨blanks, hsplit, hb⟩ := trimItems_split (l.block ++ more)
    have hinfix : cur ++ qs <:+: ps := ⟨before, rest, hpieces.symm⟩
    have hflat : (cur ++ qs).flatten = units (trimItems (l.block ++ more)) ++ units blanks := by
      rw [← units_append, ← hsplit, hblock]
    have hle := hA.trim _ hinfix _ _ hflat hb.space
    rw [hA.sum _ hinfix, ← hwidth] at hle
    exact Nat.le_trans hle hfit
  · rw [trimItems_append_blanks hblank]
    exact h.fits

theorem setColumn (h : l.Filled M width ps rest) {column : Nat} (hcol : column = l.column) :
    Layout.Filled M width ps rest { l with column := column } := by
  rw [hcol]
  exact ⟨h.ok, h.pieces, h.fits⟩

theorem column_eq_zero (h : l.Filled M width ps rest) (hA : Additive M ps) (hblock : l.block = []) :
    l.column = 0 := by
  rw [← h.width_eq hA, hblock]
  rfl

end Layout.Filled

/-! ### Rows that fit -/

def Row.Fits (M : Metrics) (width : Nat) (r : Row) : Prop := visibleWidth M (units r.trim.block) ≤ width

theorem Row.Ok.fits_iff {r : Row} (h : r.Ok) : visibleWidth M r.trim.text ≤ width ↔ r.Fits M width := by
  rw [Row.Fits, Row.text, visibleWidth_render M h.trim.closed, Row.units_items]

theorem trimItems_trimItems (items : List Item) : trimItems (trimItems items) = trimItems items :=
  rdropWhile_idempotent ..

variable {ps rest : List JsString} {l : Layout}

theorem Layout.Filled.trimmed_fits (h : l.Filled M width ps rest) :
    Row.Fits M width ⟨l.start, trimItems l.block, true⟩ := by
  have hblock : Row.block (Row.trim ⟨l.start, trimItems l.block, true⟩) = trimItems l.block := by
    rw [Row.trim]
    split
    · rfl
    · exact trimItems_trimItems _
  rw [Row.Fits, hblock]
  exact h.fits

/-- A row that is closed as it is fits, unless it is too wide and a reset keeps its end. -/
theorem Layout.Filled.flushed_fits_iff (h : l.Filled M width ps rest) (hA : Additive M ps) :
    Row.Fits M width ⟨l.start, l.block, true⟩ ↔ ¬ (l.column > width ∧ l.tracker.resetItems ≠ []) := by
  rw [Row.Fits, Row.trim]
  by_cases hreset : l.tracker.resetItems = []
  · rw [if_neg (fun hr => hr.2 hreset)]
    exact ⟨fun _ hr => hr.2 hreset, fun _ => h.fits⟩
  · rw [if_pos ⟨rfl, hreset⟩]
    change visibleWidth M (units l.block) ≤ width ↔ _
    rw [h.width_eq hA]
    constructor
    · intro hle hr
      omega
    · intro hno
      exact Nat.le_of_not_lt fun hlt => hno ⟨hlt, hreset⟩

theorem Layout.Filled.laySegment_fits {seg : Segment}
    (h : l.Filled M width ps (seg.piece.toList ++ rest)) (hA : Additive M ps)
    (hw : ∀ g ∈ ps, visibleWidth M g ≤ width) (hcol : l.column ≤ width) (hc : Closed seg.items) :
    (l.laySegment M width seg).Filled M width ps rest ∧ (l.laySegment M width seg).column ≤ width ∧
      ∃ new, (l.laySegment M width seg).rows = l.rows ++ new ∧ ∀ r ∈ new, r.Fits M width := by
  cases seg with
  | ansi s =>
    refine ⟨h.add hA _ _ hc rfl (Nat.add_zero _).symm (Or.inl hcol), hcol, [], (append_nil _).symm, ?_⟩
    intro r hr
    cases hr
  | grapheme g =>
    have hmem : g ∈ ps := by
      obtain ⟨before, cur, hps, -⟩ := h.pieces
      rw [hps]
      simp [piece]
    have hunits : units (g.map .unit) = [g].flatten := by simp
    have hsum : ([g].map (visibleWidth M)).sum = visibleWidth M g := by simp
    rw [Layout.laySegment]
    split
    · rename_i hg
      obtain ⟨before, cur, hps, hcur, hsum'⟩ := h.pieces
      have hpieces : ps = before ++ (cur ++ [g]) ++ rest := by
        rw [hps]
        simp [piece]
      have hflat : units l.block = (cur ++ [g]).flatten := by
        rw [hcur, hg]
        simp
      have hwidth : l.column = ((cur ++ [g]).map (visibleWidth M)).sum := by
        rw [hsum', hg]
        simp [visibleWidth]
      refine ⟨⟨h.ok, ⟨before, cur ++ [g], hpieces, hflat, hwidth⟩, h.fits⟩, hcol, [], (append_nil _).symm, ?_⟩
      intro r hr
      cases hr
    · split
      · have hend := h.flushed_fits_iff hA
        have hrow : Row.Fits M width ⟨l.start, l.block, true⟩ := hend.mpr fun hr => by omega
        have hzero : visibleWidth M g = (l.endRow l.block).column + ([g].map (visibleWidth M)).sum := by
          rw [hsum]
          exact (Nat.zero_add _).symm
        have hadd := (h.endRow l.block).add hA (g.map .unit) _ hc hunits hzero (Or.inl (hw g hmem))
        refine ⟨hadd, hw g hmem, [⟨l.start, l.block, true⟩], rfl, ?_⟩
        intro r hr
        rw [mem_singleton.mp hr]
        exact hrow
      · rename_i hover
        have hle := Nat.le_of_not_lt hover
        have hadd := h.add hA (g.map .unit) _ hc hunits (by rw [← hsum]; rfl) (Or.inl hle)
        refine ⟨hadd, hle, [], (append_nil _).symm, ?_⟩
        intro r hr
        cases hr

theorem Layout.Filled.laySegments_fits {segs : List Segment}
    (h : l.Filled M width ps (segs.filterMap piece ++ rest)) (hA : Additive M ps)
    (hw : ∀ g ∈ ps, visibleWidth M g ≤ width) (hcol : l.column ≤ width) (hc : ∀ seg ∈ segs, Closed seg.items) :
    (segs.foldl (Layout.laySegment M width) l).Filled M width ps rest ∧
      ∃ new, (segs.foldl (Layout.laySegment M width) l).rows = l.rows ++ new ∧ ∀ r ∈ new, r.Fits M width := by
  induction segs generalizing l with
  | nil =>
    refine ⟨h, [], (append_nil _).symm, ?_⟩
    intro r hr
    cases hr
  | cons seg segs ih =>
    have hhead : l.Filled M width ps (seg.piece.toList ++ (segs.filterMap piece ++ rest)) := by
      rw [filterMap_cons] at h
      cases hp : seg.piece with
      | none | some => rwa [hp] at h
    obtain ⟨hfilled, hcol', new, hrows, hnew⟩ := hhead.laySegment_fits hA hw hcol (hc seg mem_cons_self)
    obtain ⟨hfilled', new', hrows', hnew'⟩ := ih hfilled hcol' (fun s hs => hc s (mem_cons_of_mem _ hs))
    refine ⟨hfilled', new ++ new', ?_, ?_⟩
    · rw [foldl_cons, hrows', hrows, append_assoc]
    · intro r hr
      exact (mem_append.mp hr).elim (hnew r) (hnew' r)

/-! ### One round -/

/-- `Overflows` on a layout. -/
def Layout.Overflows (M : Metrics) (width : Nat) (l : Layout) (tk : List Item) : Prop :=
  (visibleWidth M (render tk) > width ∧ isBlank (render tk) = false) ∧ l.column > width ∧ l.tracker.resetItems ≠ []

theorem Layout.overflows_view : Tui.Overflows M width l.view (render tk) ↔ l.Overflows M width tk := by
  have hreset : l.tracker.getLineEndReset = [] ↔ l.tracker.resetItems = [] := by
    rw [← render_resetItems]
    exact render_eq_nil l.tracker.closed_resetItems
  rw [Tui.Overflows, Layout.Overflows]
  change _ ∧ _ ∧ l.tracker.getLineEndReset ≠ [] ↔ _
  rw [ne_eq, hreset]
  rfl

theorem Layout.Filled.flush_fits (h : l.Filled M width ps rest) (hA : Additive M ps) :
    l.flush.Filled M width ps rest ∧ l.flush.column = 0 ∧ ∃ new, l.flush.rows = l.rows ++ new ∧
      ((∀ r ∈ new, r.Fits M width) ↔ ¬ (l.column > width ∧ l.tracker.resetItems ≠ [])) := by
  have hok := h.ok.flush
  rw [Layout.flush] at hok ⊢
  split
  · rename_i hnil
    have hblock := (append_eq_nil_iff.mp hnil).2
    have hzero := h.column_eq_zero hA hblock
    refine ⟨h.setColumn hzero.symm, rfl, [], (append_nil _).symm, ?_⟩
    constructor
    · intro _ hr
      omega
    · intro _ r hr
      cases hr
  · refine ⟨h.endRow l.block, rfl, [⟨l.start, l.block, true⟩], rfl, ?_⟩
    rw [← h.flushed_fits_iff hA]
    exact forall_mem_singleton

theorem closed_segments (segs : List Segment) (h : Closed (segs.flatMap items)) :
    ∀ seg ∈ segs, Closed seg.items := by
  intro seg hs x hx
  exact h x (mem_flatMap.mpr ⟨seg, hs, hx⟩)

/-- The rows that a round closes fit, unless the round goes wrong. -/
theorem Layout.Filled.layToken_fits
    (h : l.Filled M width ps (tokenPieces M (render tk) ++ rest)) (hA : Additive M ps)
    (hw : ∀ g ∈ ps, visibleWidth M g ≤ width) (hc : Closed tk) :
    (l.layToken M width tk).Filled M width ps rest ∧ ∃ new, (l.layToken M width tk).rows = l.rows ++ new ∧
      ((∀ r ∈ new, r.Fits M width) ↔ ¬ l.Overflows M width tk) := by
  have hflat := flatten_tokenPieces M hc
  have hsum : visibleWidth M (render tk) = ((tokenPieces M (render tk)).map (visibleWidth M)).sum := by
    obtain ⟨before, cur, hps, -⟩ := h.pieces
    have hinfix : tokenPieces M (render tk) <:+: ps := ⟨before ++ cur, rest, by rw [hps]; simp⟩
    rw [← hA.sum _ hinfix, hflat, visibleWidth_render M hc]
  have hnone : ∀ r ∈ ([] : List Row), r.Fits M width := by
    intro r hr
    cases hr
  rw [Layout.layToken, Layout.Overflows]
  split
  · rename_i hlong
    obtain ⟨hflush, hcol, new, hrows, hnew⟩ := h.flush_fits hA
    have hsegs : l.flush.Filled M width ps ((wordSegments M [] tk).filterMap piece ++ rest) := by
      rwa [tokenPieces, scan_render hc] at hflush
    have hclosed := closed_segments (wordSegments M [] tk) (by rwa [wordSegments_items])
    obtain ⟨hfilled, new', hrows', hnew'⟩ := hsegs.laySegments_fits hA hw (by omega) hclosed
    have hcolumn := hfilled.width_eq hA
    rw [Layout.layWord]
    refine ⟨hfilled.setColumn ?_, new ++ new', ?_, ?_⟩
    · rw [visibleWidth_render M hfilled.ok.closed, units_append, units_codeItems, nil_append,
        hcolumn]
    · exact hrows'.trans (by rw [hrows, append_assoc])
    · rw [and_iff_right hlong, ← hnew, forall_mem_append]
      exact and_iff_left hnew'
  · rename_i hlong
    have hcalm : ¬ ((visibleWidth M (render tk) > width ∧ isBlank (render tk) = false) ∧ l.column > width ∧
        l.tracker.resetItems ≠ []) := fun ho => hlong ho.1
    have hfit : isBlank (render tk) = false → visibleWidth M (render tk) ≤ width := by
      intro hb
      exact Nat.le_of_not_lt fun hlt => hlong ⟨hlt, hb⟩
    split
    · have hrow : ∀ r ∈ [(⟨l.start, trimItems l.block, true⟩ : Row)], r.Fits M width := by
        intro r hr
        rw [mem_singleton.mp hr]
        exact h.trimmed_fits
      split
      · refine ⟨h.restart (h.ok.endRow _) rfl rfl, _, rfl, iff_of_true hrow hcalm⟩
      · rename_i hblank
        have hle := hfit (Bool.eq_false_iff.mpr hblank)
        have hzero : visibleWidth M (render tk) = (l.endRow (trimItems l.block)).column +
            ((tokenPieces M (render tk)).map (visibleWidth M)).sum := by
          rw [← hsum]
          exact (Nat.zero_add _).symm
        have hadd := (h.endRow (trimItems l.block)).add hA tk _ hc hflat.symm hzero (Or.inl hle)
        exact ⟨hadd, _, rfl, iff_of_true hrow hcalm⟩
    · rename_i hover
      have hor : l.column + visibleWidth M (render tk) ≤ width ∨ Blanks tk := by
        by_cases hblank : isBlank (render tk) = true
        · exact Or.inr (blanks_of_isBlank hc hblank)
        · have hle := hfit (Bool.eq_false_iff.mpr hblank)
          left
          by_contra hlt
          exact hover ⟨by omega, by omega⟩
      have hadd := h.add hA tk _ hc hflat.symm (by rw [← hsum]) hor
      exact ⟨hadd, [], (append_nil _).symm, iff_of_true hnone hcalm⟩

/-! ### All rounds -/

theorem Layout.Filled.layTokens_fits {tks : List (List Item)}
    (h : l.Filled M width ps ((tks.map render).flatMap (tokenPieces M))) (hA : Additive M ps)
    (hw : ∀ g ∈ ps, visibleWidth M g ≤ width) (hc : Closed tks.flatten) :
    (tks.foldl (Layout.layToken M width) l).Filled M width ps [] ∧
      ∃ new, (tks.foldl (Layout.layToken M width) l).rows = l.rows ++ new ∧
        ((∀ r ∈ new, r.Fits M width) ↔ ∀ before tk after, tks = before ++ tk :: after →
          ¬ (before.foldl (Layout.layToken M width) l).Overflows M width tk) := by
  induction tks generalizing l with
  | nil =>
    refine ⟨h, [], (append_nil _).symm, ?_⟩
    constructor
    · intro _ before tk after heq
      cases before <;> cases heq
    · intro _ r hr
      cases hr
  | cons tk tks ih =>
    rw [flatten_cons] at hc
    obtain ⟨htk, htks⟩ := closed_append.mp hc
    rw [map_cons, flatMap_cons] at h
    obtain ⟨hfilled, new, hrows, hnew⟩ := h.layToken_fits hA hw htk
    obtain ⟨hfilled', new', hrows', hnew'⟩ := ih hfilled htks
    refine ⟨hfilled', new ++ new', ?_, ?_⟩
    · rw [foldl_cons, hrows', hrows, append_assoc]
    · rw [forall_mem_append, hnew, hnew']
      constructor
      · rintro ⟨hhead, htail⟩ before tk' after heq
        cases before with
        | nil =>
          cases heq
          exact hhead
        | cons tk₀ before =>
          rw [cons_append, List.cons.injEq] at heq
          rw [← heq.1]
          exact htail before tk' after heq.2
      · intro hall
        refine ⟨hall [] tk tks rfl, ?_⟩
        intro before tk' after heq
        exact hall (tk :: before) tk' after (by rw [heq]; rfl)

theorem Layout.Filled.finish_fits (h : l.Filled M width ps rest) :
    (∀ r ∈ l.finish, r.Fits M width) ↔ ∀ r ∈ l.rows, r.Fits M width := by
  rw [Layout.finish]
  split
  · rfl
  · have hlast : Row.Fits M width ⟨l.start, l.block, false⟩ := by
      rw [Row.Fits, Row.trim, if_neg (fun hr => by cases hr.1)]
      exact h.fits
    rw [forall_mem_append, forall_mem_singleton]
    exact and_iff_left hlast

theorem flows_iff {line : JsString} {tks : List (List Item)} (hc : Closed tks.flatten)
    (htokens : splitIntoTokensWithAnsi line = tks.map render) (hwide : visibleWidth M line > width) :
    Flows M width line ↔ ∀ before tk after, tks = before ++ tk :: after →
      ¬ (before.foldl (Layout.layToken M width) .begin).Overflows M width tk := by
  have hstate : ∀ before tk after, tks = before ++ tk :: after →
      ((before.map render).foldl (wrapToken M width) .start =
        (before.foldl (Layout.layToken M width) .begin).view) := by
    rintro before tk after rfl
    rw [flatten_append] at hc
    refine Layout.lays_begin.foldl_view M width ?_
    rw [nil_append]
    exact (closed_append.mp hc).1
  constructor
  · intro hflows before tk after heq
    have hsplit : splitIntoTokensWithAnsi line = before.map render ++ render tk :: after.map render := by
      rw [htokens, heq, map_append, map_cons]
    have hno := hflows hwide _ _ _ hsplit
    rwa [hstate before tk after heq, Layout.overflows_view] at hno
  · intro hall _ before token after hsplit
    rw [htokens] at hsplit
    obtain ⟨before', rest, heq, rfl, hrest⟩ := map_eq_append_iff.mp hsplit
    obtain ⟨tk, after', rfl, rfl, rfl⟩ := map_eq_cons_iff.mp hrest
    rw [hstate before' tk after' heq, Layout.overflows_view]
    exact hall before' tk after' heq

theorem wrapSingleLine_bounded_iff {line : JsString} (hc : Closed (scan line)) (hA : Additive M (pieces M line))
    (hw : ∀ g ∈ pieces M line, visibleWidth M g ≤ width) :
    (∀ out ∈ wrapSingleLine M line width, visibleWidth M out ≤ width) ↔ Flows M width line := by
  by_cases hwide : visibleWidth M line ≤ width
  · have hflows : Flows M width line := fun hlt => absurd hwide (Nat.not_le_of_lt hlt)
    refine iff_of_true ?_ hflows
    intro out hout
    rw [wrapSingleLine] at hout
    split at hout
    · rw [mem_singleton.mp hout]
      exact Nat.zero_le _
    · rwa [mem_singleton.mp hout]
  · have hne : line ≠ [] := by
      rintro rfl
      exact hwide (Nat.zero_le _)
    obtain ⟨tks, htokens, hflat⟩ := tokens_eq hc
    have hclosed : Closed tks.flatten := by rwa [hflat]
    have hbegin : Layout.begin.Filled M width (pieces M line) ((tks.map render).flatMap (tokenPieces M)) := by
      refine ⟨⟨ok_fresh, fun _ hx => by cases hx⟩, ⟨[], [], ?_, rfl, rfl⟩, Nat.zero_le _⟩
      rw [pieces, htokens]
      rfl
    obtain ⟨hfilled, new, hrows, hnew⟩ := hbegin.layTokens_fits hA hw hclosed
    have hlays := Layout.lays_begin.layTokens M width hclosed
    rw [nil_append] at hlays
    obtain ⟨τ, hlaid⟩ := hlays.finish
    have hok := (hlaid.ok ok_fresh hclosed).1
    have hfinish := hfilled.finish_fits
    rw [hrows.trans (nil_append new)] at hfinish
    rw [wrapSingleLine_eq hc hne hwide htokens hflat, flows_iff hclosed htokens (Nat.lt_of_not_le hwide), ← hnew,
      ← hfinish]
    generalize (tks.foldl (Layout.layToken M width) Layout.begin).finish = rows at hok
    simp only [map_map, forall_mem_map, Function.comp_apply]
    refine forall₂_congr ?_
    intro r hr
    exact (hok r hr).fits_iff

/-- The lines are within the width, and show what the text shows, exactly when no round of any input line closes a
line that is too wide. -/
theorem bounded_iff (M : Metrics) (text : JsString) (width : Nat)
    (hwf : ∀ line ∈ splitOn newline text, WellFormed line)
    (hA : ∀ line ∈ prepared .fresh (splitOn newline text), Additive M (pieces M line))
    (hw : ∀ line ∈ prepared .fresh (splitOn newline text), ∀ g ∈ pieces M line, visibleWidth M g ≤ width) :
    ((∀ out ∈ wrapTextWithAnsi M text width, visibleWidth M out ≤ width) ∧
        (wrapTextWithAnsi M text width).flatMap visible = visible text) ↔
      ∀ line ∈ prepared .fresh (splitOn newline text), Flows M width line := by
  have hclosed := prepared_closed ok_fresh fun line hl => (hwf line hl).closed
  rw [and_iff_left (visible_lines M width hwf), wrapTextWithAnsi_eq, forall_mem_flatMap]
  exact forall₂_congr fun line hl => wrapSingleLine_bounded_iff (hclosed line hl) (hA line hl) (hw line hl)

/-! ### A line that is too wide -/

theorem visibleWidth_unitMetrics {s : JsString} (h : ∀ c ∈ s, c ≠ esc) :
    visibleWidth unitMetrics s = (expandTabs s).length := by
  have hclosed : Closed (s.map .unit) := by
    intro x hx
    obtain ⟨c, hc, rfl⟩ := mem_map.mp hx
    exact h c hc
  have hwidth := visibleWidth_closed unitMetrics hclosed
  rw [render_units, units_map_unit] at hwidth
  rw [hwidth]
  simp [Metrics.clusterWidth, unitMetrics, Function.comp_def]

theorem additive_unitMetrics (h : ∀ g ∈ ps, ∀ c ∈ g, c ≠ esc) : Additive unitMetrics ps := by
  have hflat : ∀ qs, qs <:+: ps → ∀ c ∈ qs.flatten, c ≠ esc := by
    intro qs hqs c hc
    obtain ⟨g, hg, hcg⟩ := mem_flatten.mp hc
    exact h g (hqs.subset hg) c hcg
  constructor
  · intro qs hqs
    have hall := hflat qs hqs
    clear hqs
    rw [visibleWidth_unitMetrics hall]
    induction qs with
    | nil => rfl
    | cons g qs ih =>
      rw [flatten_cons] at hall
      have hg := visibleWidth_unitMetrics fun c hc => hall c (mem_append_left _ hc)
      rw [flatten_cons, expandTabs_append, length_append, map_cons, sum_cons, hg,
        ih fun c hc => hall c (mem_append_right _ hc)]
  · intro qs hqs kept blanks hsplit _
    have hall := hflat qs hqs
    rw [visibleWidth_unitMetrics hall]
    rw [hsplit] at hall ⊢
    rw [visibleWidth_unitMetrics fun c hc => hall c (mem_append_left _ hc), expandTabs_append,
      length_append]
    exact Nat.le_add_right _ _

theorem wellFormed_iff {s : JsString} : (∀ x ∈ scan s, x ≠ .unit esc) ↔ WellFormed s := by
  constructor
  · rintro h c hc rfl
    exact h _ hc rfl
  · rintro h x hx rfl
    exact h esc hx rfl

instance : DecidablePred WellFormed := fun _ => decidable_of_iff _ wellFormed_iff

theorem bounded_words :
    ((∀ out ∈ wrapTextWithAnsi unitMetrics (ofAscii "ab cd") 2, visibleWidth unitMetrics out ≤ 2) ∧
        (wrapTextWithAnsi unitMetrics (ofAscii "ab cd") 2).flatMap visible = visible (ofAscii "ab cd")) ↔
      ∀ line ∈ prepared .fresh (splitOn newline (ofAscii "ab cd")), Flows unitMetrics 2 line :=
  bounded_iff unitMetrics (ofAscii "ab cd") 2 (by decide)
    (fun line hl => additive_unitMetrics (by revert line; decide)) (by decide)

/-- `ESC[4m`, `ab`, a space, a tab, five spaces and a long word: the spaces begin a line, and the word closes it
untrimmed and with `ESC[24m`. -/
def openSpaces : JsString := sgr (ofAscii "4") ++ ofAscii "ab " ++ [9] ++ ofAscii "     abcdefgh"

theorem too_wide : (∀ line ∈ splitOn newline openSpaces, WellFormed line) ∧
      (∀ line ∈ prepared .fresh (splitOn newline openSpaces), Additive unitMetrics (pieces unitMetrics line)) ∧
      (∀ line ∈ prepared .fresh (splitOn newline openSpaces), ∀ g ∈ pieces unitMetrics line,
        visibleWidth unitMetrics g ≤ 3) ∧
      ∃ out ∈ wrapTextWithAnsi unitMetrics openSpaces 3, visibleWidth unitMetrics out = 5 := by
  refine ⟨by decide, ?_, by decide, by decide⟩
  intro line hl
  exact additive_unitMetrics (by revert line; decide)

end Tui
end RePrime
