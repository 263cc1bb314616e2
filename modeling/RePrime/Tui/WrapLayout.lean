import RePrime.Tui.WrapRows

/-!
# RePrime.Tui.WrapLayout

Wrapping as the placing of items in rows, and the loops of `wrapSingleLine` and `breakLongWord` as implementations
of it.

* `Layout.layToken`: one round on items. `wrapToken_view`: the code's round on strings is this one.
* `Layout.Lays`: the rows and the open row hold the items so far; every round keeps it.
* `wrapSingleLine_laid`, `wrapTextWithAnsi_eq`: the lines of a text are rows that hold it.
-/

namespace RePrime
namespace Tui

open List AnsiCodeTracker
open JsText (isSpace trimEnd)

variable (M : Metrics)

/-- The closed rows and the open one. -/
structure Layout where
  rows : List Row
  start : AnsiCodeTracker
  block : List Item
  column : Nat

namespace Layout

def begin : Layout := ⟨[], .fresh, [], 0⟩

def tracker (l : Layout) : AnsiCodeTracker := l.start.run l.block

/-- The open row is closed with `kept` of its items. -/
def endRow (l : Layout) (kept : List Item) : Layout :=
  { rows := l.rows ++ [⟨l.start, kept, true⟩], start := l.tracker, block := [], column := 0 }

def flush (l : Layout) : Layout :=
  if l.start.codeItems ++ l.block = [] then { l with column := 0 } else l.endRow l.block

def laySegment (width : Nat) (l : Layout) : Segment → Layout
  | .ansi s => { l with block := l.block ++ [Item.code s] }
  | .grapheme g =>
    if g = [] then l
    else if l.column + visibleWidth M g > width then
      { l.endRow l.block with block := g.map .unit, column := visibleWidth M g }
    else { l with block := l.block ++ g.map .unit, column := l.column + visibleWidth M g }

def layWord (width : Nat) (l : Layout) (tk : List Item) : Layout :=
  let broken := (wordSegments M [] tk).foldl (laySegment M width) l.flush
  { broken with column := visibleWidth M (render (broken.start.codeItems ++ broken.block)) }

def layToken (width : Nat) (l : Layout) (tk : List Item) : Layout :=
  if visibleWidth M (render tk) > width ∧ isBlank (render tk) = false then layWord M width l tk
  else if l.column + visibleWidth M (render tk) > width ∧ l.column > 0 then
    if isBlank (render tk) then l.endRow (trimItems l.block)
    else { l.endRow (trimItems l.block) with block := tk, column := visibleWidth M (render tk) }
  else { l with block := l.block ++ tk, column := l.column + visibleWidth M (render tk) }

/-- The rows at the end: the open one too, when there is something in it. -/
def finish (l : Layout) : List Row :=
  if l.start.codeItems ++ l.block = [] then l.rows else l.rows ++ [⟨l.start, l.block, false⟩]

/-! ### What the code holds of it -/

/-- The state of the loop. -/
def view (l : Layout) : WrapState :=
  ⟨l.rows.map Row.text, render (l.start.codeItems ++ l.block), l.column, l.tracker⟩

@[simp] theorem view_currentLine (l : Layout) : l.view.currentLine = render (l.start.codeItems ++ l.block) := by
  rw [view]

@[simp] theorem view_tracker (l : Layout) : l.view.tracker = l.tracker := rfl

structure Ok (l : Layout) : Prop where
  start : l.start.Ok
  block : Closed l.block

variable {l : Layout}

theorem Ok.closed (h : l.Ok) : Closed (l.start.codeItems ++ l.block) :=
  h.start.closed_codeItems.append h.block

theorem Ok.currentLine_eq_nil (h : l.Ok) : l.view.currentLine = [] ↔ l.start.codeItems ++ l.block = [] := by
  rw [view_currentLine, render_eq_nil h.closed]

theorem Ok.tracker (h : l.Ok) : l.tracker.Ok := h.start.run h.block

theorem Ok.endRow (h : l.Ok) (kept : List Item) : (l.endRow kept).Ok where
  start := h.tracker
  block := fun _ hx => by cases hx

theorem Ok.flush (h : l.Ok) : l.flush.Ok := by
  rw [Layout.flush]
  split
  · exact ⟨h.start, h.block⟩
  · exact h.endRow _

end Layout

/-! ### Words that are broken -/

def Segment.items : Segment → List Item
  | .ansi s => [.code s]
  | .grapheme g => g.map .unit

theorem flatMap_graphemes (gs : List JsString) :
    (gs.map Segment.grapheme).flatMap Segment.items = gs.flatten.map .unit := by
  induction gs with
  | nil => rfl
  | cons g gs ih => rw [map_cons, flatMap_cons, ih, flatten_cons, map_append]; rfl

theorem wordSegments_items (run : JsString) (items : List Item) :
    (wordSegments M run items).flatMap Segment.items = run.map .unit ++ items := by
  induction items generalizing run with
  | nil => rw [wordSegments, flatMap_graphemes, M.segment_flatten, append_nil]
  | cons x items ih =>
    cases x with
    | code s =>
      rw [wordSegments, flatMap_append, flatMap_graphemes, M.segment_flatten, flatMap_cons, ih]
      rfl
    | unit c =>
      rw [wordSegments, ih, map_append, append_assoc]
      rfl

/-- What `breakLongWord` holds of a layout; `base` are the lines of before. -/
structure BreakState.Shows (base : List JsString) (st : BreakState) (l : Layout) : Prop where
  lines : base ++ st.lines = l.rows.map Row.text
  currentLine : st.currentLine = render (l.start.codeItems ++ l.block)
  currentWidth : st.currentWidth = l.column
  tracker : st.tracker = l.tracker
  opened : st.lines ≠ [] → st.currentLine ≠ []

variable {M} {width : Nat}

theorem Layout.tracker_begun (rows : List Row) (start : AnsiCodeTracker) (column : Nat) :
    Layout.tracker ⟨rows, start, [], column⟩ = start := rfl

theorem Layout.tracker_add (l : Layout) (more : List Item) : l.start.run (l.block ++ more) = l.tracker.run more :=
  run_append ..

theorem render_code (s : JsString) : render [.code s] = s := by simp [render, Item.text]

variable {base : List JsString} {l : Layout}

theorem BreakState.Shows.step {st : BreakState} (h : st.Shows base l)
    (seg : Segment) : (breakStep M width st seg).Shows base (l.laySegment M width seg) := by
  cases seg with
  | ansi s =>
    refine ⟨h.lines, ?_, h.currentWidth, ?_, ?_⟩
    · change st.currentLine ++ s = render (l.start.codeItems ++ (l.block ++ [Item.code s]))
      rw [h.currentLine, ← append_assoc, render_append _ [.code s], render_code]
    · change st.tracker.process s = l.start.run (l.block ++ [Item.code s])
      rw [h.tracker, l.tracker_add]
      rfl
    · intro hlines hnil
      exact h.opened hlines (append_eq_nil_iff.mp hnil).1
  | grapheme g =>
    rw [breakStep, Layout.laySegment, h.currentWidth]
    split
    · exact h
    · rename_i hg
      split
      · refine ⟨?_, ?_, rfl, ?_, ?_⟩
        · change base ++ (st.lines ++ [st.currentLine ++ st.tracker.getLineEndReset]) =
            (l.rows ++ [(⟨l.start, l.block, true⟩ : Row)]).map Row.text
          rw [← append_assoc, h.lines, map_append, h.currentLine, h.tracker, ← render_resetItems, ← render_append]
          rfl
        · change st.tracker.getActiveCodes ++ g = render (l.tracker.codeItems ++ g.map Item.unit)
          rw [h.tracker, render_append, render_codeItems, render_units]
        · change st.tracker = l.tracker.run (g.map Item.unit)
          rw [h.tracker, run_units]
        · intro _ hnil
          exact hg (append_eq_nil_iff.mp hnil).2
      · refine ⟨h.lines, ?_, rfl, ?_, ?_⟩
        · change st.currentLine ++ g = render (l.start.codeItems ++ (l.block ++ g.map Item.unit))
          rw [h.currentLine, ← append_assoc, render_append _ (g.map .unit), render_units]
        · change st.tracker = l.start.run (l.block ++ g.map Item.unit)
          rw [l.tracker_add, run_units, h.tracker]
        · intro hlines hnil
          exact hg (append_eq_nil_iff.mp hnil).2

theorem BreakState.Shows.foldl {st : BreakState} (h : st.Shows base l)
    (M : Metrics) (width : Nat) (segs : List Segment) :
    (segs.foldl (breakStep M width) st).Shows base (segs.foldl (Layout.laySegment M width) l) := by
  induction segs generalizing st l with
  | nil => exact h
  | cons seg segs ih => exact ih (h.step seg)

theorem breakLongWord_eq {word : JsString} {items : List Item} (hword : scan word = items)
    {tracker : AnsiCodeTracker}
    (h : ((wordSegments M [] items).foldl (breakStep M width) ⟨[], tracker.getActiveCodes, 0, tracker⟩).Shows base l) :
    ∃ lines, breakLongWord M word width tracker = (lines, render (l.start.codeItems ++ l.block), l.tracker) ∧
      base ++ lines = l.rows.map Row.text := by
  rw [breakLongWord, hword]
  generalize (wordSegments M [] items).foldl (breakStep M width) _ = st at h ⊢
  refine ⟨st.lines, ?_, h.lines⟩
  rw [← h.currentLine, ← h.tracker]
  by_cases hcur : st.currentLine = []
  · have hlines : st.lines = [] := not_not.mp fun hne => h.opened hne hcur
    rw [if_pos hcur, hcur, hlines]
    rfl
  · have hne : st.lines ++ [st.currentLine] ≠ [] := by simp
    rw [if_neg hcur, if_neg hne, dropLast_concat, getLast?_concat]
    rfl

/-! ### The rounds of the loop -/

theorem Layout.Ok.flush_shows (h : l.Ok) :
    BreakState.Shows l.view.flush ⟨[], l.tracker.getActiveCodes, 0, l.tracker⟩ l.flush := by
  have hnil := h.currentLine_eq_nil
  rw [WrapState.flush, Layout.flush]
  by_cases hcur : l.start.codeItems ++ l.block = []
  · have hview : l.view.currentLine = [] := hnil.mpr hcur
    have hblock : l.block = [] := (append_eq_nil_iff.mp hcur).2
    have htracker : l.tracker = l.start := by rw [Layout.tracker, hblock]; rfl
    rw [if_pos hcur, if_pos hview]
    refine ⟨append_nil _, ?_, rfl, rfl, fun hne => absurd rfl hne⟩
    dsimp only
    rw [htracker, hblock, append_nil, render_codeItems]
  · have hview : ¬ l.view.currentLine = [] := fun hv => hcur (hnil.mp hv)
    rw [if_neg hcur, if_neg hview]
    refine ⟨?_, ?_, rfl, rfl, fun hne => absurd rfl hne⟩
    · dsimp only [Layout.view, Layout.endRow]
      rw [append_nil, map_append, ← render_resetItems, ← render_append]
      rfl
    · dsimp only [Layout.endRow]
      rw [append_nil, render_codeItems]

theorem run_trimItems (t : AnsiCodeTracker) (items : List Item) : t.run (trimItems items) = t.run items := by
  obtain ⟨blanks, hsplit, hb⟩ := trimItems_split items
  conv_rhs => rw [hsplit, run_append, hb.run]

/-- The line that `wrapSingleLine` closes at a break. -/
theorem Layout.Ok.closedLine (h : l.Ok) :
    trimEnd l.view.currentLine ++ l.tracker.getLineEndReset = Row.text ⟨l.start, trimItems l.block, true⟩ := by
  have hrow : Row.text ⟨l.start, trimItems l.block, true⟩ =
      render (l.start.codeItems ++ trimItems l.block ++ (l.start.run (trimItems l.block)).resetItems) := rfl
  rw [Layout.view_currentLine, hrow, trimEnd_render h.closed,
    trimItems_append (trimItems_codes l.start.units_codeItems), run_trimItems,
    render_append _ (resetItems _), render_resetItems, Layout.tracker]

theorem wrapToken_view (h : l.Ok) {tk : List Item} (htk : Closed tk) :
    wrapToken M width l.view (render tk) = (l.layToken M width tk).view := by
  have hscan := scan_render htk
  have htracker : l.view.tracker.update (render tk) = l.tracker.run tk := by
    rw [update, hscan, Layout.view_tracker]
  rw [Layout.layToken]
  split
  · rename_i hlong
    have hshows := (h.flush_shows).foldl M width (wordSegments M [] tk)
    rw [Layout.layWord]
    generalize (wordSegments M [] tk).foldl (Layout.laySegment M width) l.flush = broken at hshows ⊢
    obtain ⟨lines, hbreak, hlines⟩ := breakLongWord_eq hscan hshows
    have hbreak : breakLongWord M (render tk) width l.view.tracker = _ := hbreak
    rw [wrapToken, if_pos hlong, hbreak]
    dsimp only [Layout.view] at hlines ⊢
    rw [hlines, Layout.tracker, Layout.tracker]
  · rename_i hlong
    rw [wrapToken, if_neg hlong]
    by_cases hover : l.column + visibleWidth M (render tk) > width ∧ l.column > 0
    · have hview : l.view.currentVisibleLength + visibleWidth M (render tk) > width ∧
          l.view.currentVisibleLength > 0 := hover
      have hclosed : trimEnd l.view.currentLine ++ l.view.tracker.getLineEndReset = _ := h.closedLine
      rw [if_pos hview, if_pos hover, hclosed, htracker]
      by_cases hblank : isBlank (render tk) = true
      · rw [if_pos hblank, if_pos hblank, if_pos hblank, (blanks_of_isBlank htk hblank).run]
        dsimp only [Layout.view, Layout.endRow]
        rw [map_append, map_singleton, append_nil, append_nil, render_codeItems, Layout.tracker_begun]
      · rw [if_neg hblank, if_neg hblank, if_neg hblank]
        dsimp only [Layout.view, Layout.endRow]
        rw [map_append, map_singleton, render_append, render_codeItems, Layout.tracker.eq_def ⟨_, _, tk, _⟩]
    · have hview : ¬ (l.view.currentVisibleLength + visibleWidth M (render tk) > width ∧
          l.view.currentVisibleLength > 0) := hover
      rw [if_neg hview, if_neg hover, htracker]
      dsimp only [Layout.view]
      rw [← render_append, append_assoc, Layout.tracker.eq_def ⟨_, _, l.block ++ tk, _⟩, l.tracker_add]

/-! ### The rows hold the text -/

/-- The rows hold what was placed before the open row, which holds the rest. -/
def Layout.Lays (l : Layout) (items : List Item) : Prop :=
  ∃ done, Laid .fresh l.rows done l.start ∧ items = done ++ l.block

variable {l : Layout} {items : List Item}

theorem Layout.lays_begin : Layout.begin.Lays [] := ⟨[], .start, rfl⟩

theorem Layout.Lays.ok (h : l.Lays items) (hc : Closed items) : l.Ok := by
  obtain ⟨done, hlaid, rfl⟩ := h
  obtain ⟨hdone, hblock⟩ := closed_append.mp hc
  exact ⟨(hlaid.ok ok_fresh hdone).2, hblock⟩

theorem Layout.Lays.add (h : l.Lays items) (more : List Item) (column : Nat) :
    Lays { l with block := l.block ++ more, column := column } (items ++ more) := by
  obtain ⟨done, hlaid, rfl⟩ := h
  exact ⟨done, hlaid, append_assoc ..⟩

theorem Layout.Lays.setColumn (h : l.Lays items) (column : Nat) : Lays { l with column := column } items := h

/-- A row may leave out blanks of the open row and blanks that come next. -/
theorem Layout.Lays.endRow (h : l.Lays items) {kept blanks more : List Item} (hsplit : l.block = kept ++ blanks)
    (hb : Blanks blanks) (hmore : Blanks more) : (l.endRow kept).Lays (items ++ more) := by
  obtain ⟨done, hlaid, rfl⟩ := h
  have htracker : Row.stop ⟨l.start, kept, true⟩ = l.tracker := by
    rw [Layout.tracker, hsplit, run_append, hb.run]
    rfl
  have hrow := Laid.row (r := ⟨l.start, kept, true⟩) hlaid (hb.append hmore)
  rw [htracker] at hrow
  refine ⟨_, hrow, ?_⟩
  rw [hsplit]
  change _ = (done ++ kept ++ (blanks ++ more)) ++ []
  simp only [append_assoc, append_nil]

theorem blanks_nil : Blanks [] := fun _ hx => by cases hx

theorem Layout.Lays.endRow_all (h : l.Lays items) : (l.endRow l.block).Lays items := by
  have := h.endRow (append_nil _).symm blanks_nil blanks_nil
  rwa [append_nil] at this

theorem Layout.Lays.flush (h : l.Lays items) : l.flush.Lays items := by
  rw [Layout.flush]
  split
  · exact h.setColumn 0
  · exact h.endRow_all

theorem Layout.Lays.laySegment (h : l.Lays items) (M : Metrics) (width : Nat) (seg : Segment) :
    (l.laySegment M width seg).Lays (items ++ seg.items) := by
  cases seg with
  | ansi s => exact h.add _ _
  | grapheme g =>
    rw [Layout.laySegment]
    split
    · rename_i hg
      rw [hg]
      exact (append_nil items).symm ▸ h
    · split
      · exact h.endRow_all.add _ _
      · exact h.add _ _

theorem Layout.Lays.laySegments (h : l.Lays items) (M : Metrics) (width : Nat) (segs : List Segment) :
    (segs.foldl (Layout.laySegment M width) l).Lays (items ++ segs.flatMap Segment.items) := by
  induction segs generalizing l items with
  | nil => exact (append_nil items).symm ▸ h
  | cons seg segs ih =>
    have := ih (h.laySegment M width seg)
    rwa [append_assoc] at this

theorem Layout.Lays.layToken (h : l.Lays items) (M : Metrics) (width : Nat) {tk : List Item} (htk : Closed tk) :
    (l.layToken M width tk).Lays (items ++ tk) := by
  rw [Layout.layToken]
  split
  · have hword := h.flush.laySegments M width (wordSegments M [] tk)
    rw [wordSegments_items] at hword
    exact hword.setColumn _
  · split
    · obtain ⟨blanks, hsplit, hb⟩ := trimItems_split l.block
      split
      · rename_i hblank
        exact h.endRow hsplit hb (blanks_of_isBlank htk hblank)
      · have hrow := h.endRow hsplit hb blanks_nil
        rw [append_nil] at hrow
        exact hrow.add tk _
    · exact h.add tk _

variable {tks : List (List Item)}

theorem Layout.Lays.layTokens (h : l.Lays items) (M : Metrics) (width : Nat)
    (hc : Closed tks.flatten) : (tks.foldl (Layout.layToken M width) l).Lays (items ++ tks.flatten) := by
  induction tks generalizing l items with
  | nil => exact (append_nil items).symm ▸ h
  | cons tk tks ih =>
    rw [flatten_cons] at hc ⊢
    obtain ⟨htk, htks⟩ := closed_append.mp hc
    have := ih (h.layToken M width htk) htks
    rwa [append_assoc] at this

theorem Layout.Lays.foldl_view (h : l.Lays items) (M : Metrics) (width : Nat) (hc : Closed (items ++ tks.flatten)) :
    (tks.map render).foldl (wrapToken M width) l.view = (tks.foldl (Layout.layToken M width) l).view := by
  induction tks generalizing l items with
  | nil => rfl
  | cons tk tks ih =>
    rw [flatten_cons, ← append_assoc] at hc
    obtain ⟨hitems, htk⟩ := closed_append.mp (closed_append.mp hc).1
    rw [map_cons, foldl_cons, foldl_cons, wrapToken_view (h.ok hitems) htk]
    exact ih (h.layToken M width htk) hc

theorem Layout.Lays.finish (h : l.Lays items) : ∃ τ, Laid .fresh l.finish items τ := by
  obtain ⟨done, hlaid, rfl⟩ := h
  rw [Layout.finish]
  split
  · rename_i hnil
    rw [(append_eq_nil_iff.mp hnil).2, append_nil]
    exact ⟨_, hlaid⟩
  · have hrow := Laid.row (r := ⟨l.start, l.block, false⟩) hlaid blanks_nil
    rw [append_nil] at hrow
    exact ⟨_, hrow⟩

theorem Layout.Ok.finish_view (h : l.Ok) :
    (if l.view.currentLine = [] then l.view.wrapped else l.view.wrapped ++ [l.view.currentLine]) =
      l.finish.map Row.text := by
  have hnil := h.currentLine_eq_nil
  rw [Layout.finish]
  by_cases hcur : l.start.codeItems ++ l.block = []
  · rw [if_pos hcur, if_pos (hnil.mpr hcur)]
    rfl
  · have hrow : Row.text ⟨l.start, l.block, false⟩ = render (l.start.codeItems ++ l.block ++ []) := rfl
    rw [if_neg hcur, if_neg (fun hv => hcur (hnil.mp hv)), map_append, map_singleton, hrow, append_nil,
      Layout.view]

/-! ### The lines of a text -/

variable {line : JsString}

theorem scan_ne_nil (h : line ≠ []) : scan line ≠ [] := by
  intro hnil
  have := render_scan line
  rw [hnil] at this
  exact h this.symm

theorem wrapSingleLine_eq (hc : Closed (scan line)) (hne : line ≠ []) (hwide : ¬ visibleWidth M line ≤ width)
    (htokens : splitIntoTokensWithAnsi line = tks.map render) (hflat : tks.flatten = scan line) :
    wrapSingleLine M line width =
      ((tks.foldl (Layout.layToken M width) .begin).finish.map Row.trim).map Row.text := by
  have hclosed : Closed ([] ++ tks.flatten) := by rwa [nil_append, hflat]
  have hlays := Layout.lays_begin.layTokens M width hclosed
  have hview : (tks.map render).foldl (wrapToken M width) .start = _ := Layout.lays_begin.foldl_view M width hclosed
  have hok := hlays.ok hclosed
  obtain ⟨τ, hlaid⟩ := hlays.finish
  have htrim := hlaid.trimEnd_texts ok_fresh hclosed
  rw [wrapSingleLine, if_neg hne, if_neg hwide, htokens]
  dsimp only
  rw [hview]
  generalize tks.foldl (Layout.layToken M width) Layout.begin = l at hlays hok hlaid htrim ⊢
  have hfinish := hok.finish_view
  have hsome : l.finish.map Row.text ≠ [] := by
    intro hnil
    rw [map_eq_nil_iff] at hnil
    rw [hnil, nil_append, hflat] at hlaid
    generalize hitems : scan line = items at hlaid
    generalize hrows : ([] : List Row) = rows at hlaid
    cases hlaid with
    | start => exact scan_ne_nil hne hitems
    | row => simp at hrows
  rw [hfinish, if_neg hsome, htrim]

theorem laid_all (items : List Item) : Laid .fresh [⟨.fresh, items, false⟩] items (fresh.run items) := by
  have hrow := Laid.row (r := ⟨.fresh, items, false⟩) Laid.start blanks_nil
  rwa [append_nil] at hrow

theorem text_all (items : List Item) : Row.text ⟨.fresh, items, false⟩ = render items := by
  change render ([] ++ items ++ []) = _
  rw [nil_append, append_nil]

theorem wrapSingleLine_laid (M : Metrics) (width : Nat) (hc : Closed (scan line)) :
    ∃ rows τ, Laid .fresh rows (scan line) τ ∧ wrapSingleLine M line width = rows.map Row.text := by
  by_cases hne : line = []
  · refine ⟨_, _, laid_all (scan line), ?_⟩
    rw [wrapSingleLine, if_pos hne, map_singleton, text_all, render_scan, hne]
  · by_cases hwide : visibleWidth M line ≤ width
    · refine ⟨_, _, laid_all (scan line), ?_⟩
      rw [wrapSingleLine, if_neg hne, if_pos hwide, map_singleton, text_all, render_scan]
    · obtain ⟨tks, htokens, hflat⟩ := tokens_eq hc
      have hclosed : Closed tks.flatten := by rwa [hflat]
      obtain ⟨τ, hlaid⟩ := (Layout.lays_begin.layTokens M width hclosed).finish
      rw [nil_append, hflat] at hlaid
      exact ⟨_, τ, hlaid.trim, wrapSingleLine_eq hc hne hwide htokens hflat⟩

theorem wrapSingleLine_ne_nil (M : Metrics) (line : JsString) (width : Nat) : wrapSingleLine M line width ≠ [] := by
  have hmap : ∀ wrapped : List JsString, (if wrapped = [] then [[]] else wrapped.map trimEnd) ≠ [] := by
    intro wrapped
    split
    · exact cons_ne_nil _ _
    · rename_i hne
      exact fun hnil => hne (map_eq_nil_iff.mp hnil)
  rw [wrapSingleLine]
  split
  · exact cons_ne_nil _ _
  · split
    · exact cons_ne_nil _ _
    · exact hmap _

/-- The input lines as they are wrapped: each with the codes that are active before it. -/
def prepared (t : AnsiCodeTracker) : List JsString → List JsString
  | [] => []
  | line :: lines => (t.getActiveCodes ++ line) :: prepared (t.update line) lines

theorem foldl_wrapInputLine (M : Metrics) (width : Nat) (lines : List JsString)
    (st : List JsString × AnsiCodeTracker) (hst : st.1 = [] → st.2.getActiveCodes = []) :
    (lines.foldl (wrapInputLine M width) st).1 =
      st.1 ++ (prepared st.2 lines).flatMap fun line => wrapSingleLine M line width := by
  induction lines generalizing st with
  | nil => exact (append_nil _).symm
  | cons line lines ih =>
    have hcodes : (if st.1 = [] then [] else st.2.getActiveCodes) = st.2.getActiveCodes := by
      split
      · rename_i hnil
        exact (hst hnil).symm
      · rfl
    have hstep : wrapInputLine M width st line =
        (st.1 ++ wrapSingleLine M (st.2.getActiveCodes ++ line) width, st.2.update line) := by
      rw [wrapInputLine, hcodes]
    rw [foldl_cons, hstep, ih]
    · rw [prepared, flatMap_cons, append_assoc]
    · intro hnil
      exact absurd (append_eq_nil_iff.mp hnil).2 (wrapSingleLine_ne_nil M _ width)

theorem wrapTextWithAnsi_eq (M : Metrics) (text : JsString) (width : Nat) : wrapTextWithAnsi M text width =
      (prepared .fresh (splitOn JsText.newline text)).flatMap fun line => wrapSingleLine M line width := by
  have hfold := foldl_wrapInputLine M width (splitOn JsText.newline text) ([], .fresh) (fun _ => rfl)
  rw [nil_append] at hfold
  rw [wrapTextWithAnsi]
  split
  · rename_i hnil
    rw [hnil]
    rfl
  · rw [hfold]
    rw [if_neg]
    intro hnil
    obtain ⟨line, lines, hlines⟩ := exists_cons_of_ne_nil (splitOn_ne_nil JsText.newline text)
    rw [hlines, prepared, flatMap_cons, append_eq_nil_iff] at hnil
    exact wrapSingleLine_ne_nil M _ width hnil.1

end Tui
end RePrime
