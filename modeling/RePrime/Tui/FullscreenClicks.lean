import RePrime.Tui.CompositeColumns
import RePrime.Tui.Fullscreen

/-!
# RePrime.Tui.FullscreenClicks

Clicks on the alternate screen (`fullscreen.ts`, `renderFullscreen` in `tui.ts`): the click regions of the header,
the transcript and the dock, projected onto the rows of a frame and cut where something is painted over them.

* `frameClickEntries`: the regions on the rows of the frame.
* `hitOf_subtract`: what a covered range of columns takes away.
* `clickTargetAt_shown`: a click finds the first region that has the line and the column shown there.
-/

namespace RePrime
namespace Tui

open Option List
open JsText (ofAscii)

variable {α : Type}

/-! ### Projection -/

structure ProjectedRegionRows where
  anchor : Int
  fromRow : Int
  count : Int

structure FrameClickEntry (α : Type) extends ProjectedRegionRows where
  region : ClickRegion α

structure ClickPosition where
  row : Int
  col : Int
deriving DecidableEq

/-- Where a click is in the region of its target. -/
def FrameClickTarget.position (t : FrameClickTarget α) (row col : Int) : ClickPosition :=
  ⟨row - t.anchor, col - t.region.col⟩

namespace FullscreenViewport

def projectRows (line height firstFrameRow frameRowCount : Int) (frameRowOfLine : Int → Int) :
    Option ProjectedRegionRows :=
  let anchor := frameRowOfLine line
  let fromRow := max anchor firstFrameRow
  let stop := min (anchor + max 1 height) (firstFrameRow + frameRowCount)
  if stop > fromRow then some ⟨anchor, fromRow, stop - fromRow⟩ else none

/-- The header keeps its bottom rows. -/
def projectHeaderRegion (v : FullscreenViewport α) (line height : Int) : Option ProjectedRegionRows :=
  let start : Int := max 0 ((v.lastHeaderLines : Int) - v.lastHeaderHeight)
  projectRows line height 0 v.lastHeaderHeight fun row => row - start

def projectTranscriptRegion (v : FullscreenViewport α) (line height : Int) : Option ProjectedRegionRows :=
  let base : Int := v.lastHeaderHeight - v.scrollTop
  projectRows line height v.lastHeaderHeight v.lastWindowHeight fun row => base + row

/-- The dock keeps its bottom rows. -/
def projectDockRegion (v : FullscreenViewport α) (line height : Int) : Option ProjectedRegionRows :=
  let start : Int := max 0 ((v.lastDockLines : Int) - v.lastDockHeight)
  let base : Int := v.lastHeaderHeight + v.lastWindowHeight
  projectRows line height base v.lastDockHeight fun row => base + row - start

def projectRegion (v : FullscreenViewport α) (area : Area) (line height : Int) : Option ProjectedRegionRows :=
  match area with
  | .header => v.projectHeaderRegion line height
  | .transcript => v.projectTranscriptRegion line height
  | .dock => v.projectDockRegion line height

/-- The entries of the regions that are on the frame. -/
def projectRegions (regions : List (ClickRegion α)) (project : Int → Int → Option ProjectedRegionRows) :
    List (FrameClickEntry α) :=
  regions.filterMap fun region => (project region.line region.height).map fun rows => { rows with region := region }

def frameClickEntries (v : FullscreenViewport α) (headerClickRegions transcriptClickRegions dockClickRegions :
    List (ClickRegion α)) : List (FrameClickEntry α) :=
  projectRegions headerClickRegions v.projectHeaderRegion ++
    projectRegions transcriptClickRegions v.projectTranscriptRegion ++
    projectRegions dockClickRegions v.projectDockRegion

/-- A target on each row of the entry. -/
def entryTargets (e : FrameClickEntry α) : List (FrameClickTarget α) :=
  (List.range e.count.toNat).map fun (k : Nat) => ⟨e.fromRow + k, e.region.col, e.region.width, e.anchor, e.region⟩

def setFrameClickRegions (v : FullscreenViewport α) (entries : List (FrameClickEntry α)) : FullscreenViewport α :=
  { v with frameClickTargets := entries.flatMap entryTargets }

/-! ### Coverage -/

/-- What is left of a target under a covered range. -/
def fragments (target : FrameClickTarget α) (startCol endCol : Int) : List (FrameClickTarget α) :=
  let targetEnd := target.col + target.width
  (if target.col < startCol then [{ target with width := startCol - target.col }] else []) ++
    if endCol < targetEnd then [{ target with col := endCol, width := targetEnd - endCol }] else []

/-- The loop over the targets from the last to the first; each is replaced by its fragments in place. -/
def subtractFrom (line startCol endCol : Int) : Nat → List (FrameClickTarget α) → List (FrameClickTarget α)
  | 0, targets => targets
  | i + 1, targets =>
    match targets[i]? with
    | none => subtractFrom line startCol endCol i targets
    | some target =>
      if target.row ≠ line then subtractFrom line startCol endCol i targets
      else if endCol ≤ target.col ∨ target.col + target.width ≤ startCol then
        subtractFrom line startCol endCol i targets
      else
        subtractFrom line startCol endCol i
          (targets.take i ++ fragments target startCol endCol ++ targets.drop (i + 1))

def subtractFrameClickCoverage (v : FullscreenViewport α) (line startCol endCol : Int) : FullscreenViewport α :=
  { v with frameClickTargets := subtractFrom line startCol endCol v.frameClickTargets.length v.frameClickTargets }

/-- Columns of a row that are painted over. -/
structure Cover where
  line : Int
  startCol : Int
  endCol : Int

def subtractCovers (v : FullscreenViewport α) (covers : List Cover) : FullscreenViewport α :=
  covers.foldl (fun v c => v.subtractFrameClickCoverage c.line c.startCol c.endCol) v

def clickTargetAt (v : FullscreenViewport α) (screenRow screenCol : Int) : Option (FrameClickTarget α) :=
  if screenRow < 0 ∨ screenCol < 0 then none
  else
    v.frameClickTargets.find? fun target =>
      target.row = screenRow ∧ target.col ≤ screenCol ∧ screenCol < target.col + target.width

/-! ### What a click finds -/

def Cover.Covers (c : Cover) (row col : Int) : Prop := row = c.line ∧ c.startCol ≤ col ∧ col < c.endCol

instance (c : Cover) (row col : Int) : Decidable (c.Covers row col) := inferInstanceAs (Decidable (_ ∧ _))

/-- A line and a column of the region. A region of no height has one line. -/
def Contains (region : ClickRegion α) (line col : Int) : Prop :=
  (region.line ≤ line ∧ line < region.line + max 1 region.height) ∧
    region.col ≤ col ∧ col < region.col + region.width

instance (region : ClickRegion α) (line col : Int) : Decidable (Contains region line col) :=
  inferInstanceAs (Decidable (_ ∧ _))

/-- The region, and where the cell is in it, when the cell shows a line and a column of it. -/
def shownAt (v : FullscreenViewport α) (row col : Int) (placed : Area × ClickRegion α) :
    Option (ClickRegion α × ClickPosition) :=
  (v.lineAt placed.1 row).bind fun line =>
    if Contains placed.2 line col then some (placed.2, ⟨line - placed.2.line, col - placed.2.col⟩) else none

/-- The regions with their areas, in the order of the list. -/
def placedRegions (headerClickRegions transcriptClickRegions dockClickRegions : List (ClickRegion α)) :
    List (Area × ClickRegion α) :=
  headerClickRegions.map (.header, ·) ++ transcriptClickRegions.map (.transcript, ·) ++ dockClickRegions.map (.dock, ·)

/-- The region and the anchor that the first target at the cell has. -/
def hitOf (targets : List (FrameClickTarget α)) (row col : Int) : Option (ClickRegion α × Int) :=
  targets.findSome? fun target =>
    if target.row = row ∧ target.col ≤ col ∧ col < target.col + target.width then some (target.region, target.anchor)
    else none

theorem hitOf_append (a b : List (FrameClickTarget α)) (row col : Int) :
    hitOf (a ++ b) row col = (hitOf a row col).or (hitOf b row col) := findSome?_append

theorem clickTargetAt_hit (v : FullscreenViewport α) {row col : Int} (h : ¬ (row < 0 ∨ col < 0)) :
    (v.clickTargetAt row col).map (fun t => (t.region, t.position row col)) =
      (hitOf v.frameClickTargets row col).map fun p => (p.1, ⟨row - p.2, col - p.1.col⟩) := by
  rw [clickTargetAt, if_neg h, hitOf]
  induction v.frameClickTargets with
  | nil => rfl
  | cons t targets ih =>
    rw [find?_cons, findSome?_cons]
    by_cases ht : t.row = row ∧ t.col ≤ col ∧ col < t.col + t.width
    · rw [if_pos ht]
      simp only [ht, and_self, decide_true]
      rfl
    · rw [if_neg ht]
      simp only [ht, decide_false]
      exact ih

/-! ### The covered columns -/

/-- What is left of a target. -/
def cut (line startCol endCol : Int) (target : FrameClickTarget α) : List (FrameClickTarget α) :=
  if target.row ≠ line ∨ endCol ≤ target.col ∨ target.col + target.width ≤ startCol then [target]
  else fragments target startCol endCol

theorem subtractFrom_append (line startCol endCol : Int) (a b : List (FrameClickTarget α)) :
    subtractFrom line startCol endCol a.length (a ++ b) = a.flatMap (cut line startCol endCol) ++ b := by
  induction a using reverseRecOn generalizing b with
  | nil => rfl
  | append_singleton a t ih =>
    have hlen : (a ++ [t]).length = a.length + 1 := by simp
    have hget : (a ++ ([t] ++ b))[a.length]? = some t := by simp
    have hkeep : subtractFrom line startCol endCol a.length (a ++ ([t] ++ b)) =
        a.flatMap (cut line startCol endCol) ++ [t] ++ b := by
      rw [ih, append_assoc]
    rw [hlen, append_assoc, subtractFrom, hget, flatMap_append, flatMap_singleton]
    dsimp only
    by_cases hrow : t.row ≠ line
    · rw [if_pos hrow, hkeep, cut, if_pos (.inl hrow)]
    · rw [if_neg hrow]
      by_cases hout : endCol ≤ t.col ∨ t.col + t.width ≤ startCol
      · rw [if_pos hout, hkeep, cut, if_pos (.inr hout)]
      · have htake : (a ++ ([t] ++ b)).take a.length = a := by simp
        have hdrop : (a ++ ([t] ++ b)).drop (a.length + 1) = b := by simp
        rw [if_neg hout, htake, hdrop, append_assoc, ih, cut, if_neg, append_assoc]
        rintro (h | h)
        · exact hrow h
        · exact hout h

theorem hitOf_cut (line startCol endCol : Int) (t : FrameClickTarget α) (row col : Int) :
    hitOf (cut line startCol endCol t) row col =
      if row = line ∧ startCol ≤ col ∧ col < endCol then none else hitOf [t] row col := by
  have hone : ∀ u : FrameClickTarget α, hitOf [u] row col =
      if u.row = row ∧ u.col ≤ col ∧ col < u.col + u.width then some (u.region, u.anchor) else none := by
    intro u
    rw [hitOf, findSome?_singleton]
  rw [cut]
  by_cases hkeep : t.row ≠ line ∨ endCol ≤ t.col ∨ t.col + t.width ≤ startCol
  · rw [if_pos hkeep]
    by_cases hcov : row = line ∧ startCol ≤ col ∧ col < endCol
    · rw [if_pos hcov, hone, if_neg (by omega)]
    · rw [if_neg hcov]
  · rw [if_neg hkeep, fragments, hitOf_append, hone t]
    have hleft : hitOf (if t.col < startCol then [{ t with width := startCol - t.col }] else []) row col =
        if t.row = row ∧ t.col ≤ col ∧ col < startCol then some (t.region, t.anchor) else none := by
      split
      · rw [hone]
        dsimp only
        rw [show t.col + (startCol - t.col) = startCol by omega]
      · rw [if_neg (by omega)]
        rfl
    have hright : hitOf (if endCol < t.col + t.width then
          [{ t with col := endCol, width := t.col + t.width - endCol }] else []) row col =
        if t.row = row ∧ endCol ≤ col ∧ col < t.col + t.width then some (t.region, t.anchor) else none := by
      split
      · rw [hone]
        dsimp only
        rw [show endCol + (t.col + t.width - endCol) = t.col + t.width by omega]
      · rw [if_neg (by omega)]
        rfl
    rw [hleft, hright]
    by_cases hcov : row = line ∧ startCol ≤ col ∧ col < endCol
    · rw [if_pos hcov, if_neg (by omega), if_neg (by omega)]
      rfl
    · rw [if_neg hcov]
      by_cases hl : t.row = row ∧ t.col ≤ col ∧ col < startCol
      · have ht : t.row = row ∧ t.col ≤ col ∧ col < t.col + t.width := by omega
        rw [if_pos hl, if_pos ht, some_or]
      · rw [if_neg hl, none_or]
        refine if_congr ?_ rfl rfl
        omega

theorem hitOf_subtract (v : FullscreenViewport α) (c : Cover) (row col : Int) :
    hitOf (v.subtractFrameClickCoverage c.line c.startCol c.endCol).frameClickTargets row col =
      if c.Covers row col then none else hitOf v.frameClickTargets row col := by
  have hcut := subtractFrom_append c.line c.startCol c.endCol v.frameClickTargets []
  rw [append_nil, append_nil] at hcut
  rw [subtractFrameClickCoverage, hcut]
  change hitOf (v.frameClickTargets.flatMap (cut c.line c.startCol c.endCol)) row col = _
  induction v.frameClickTargets with
  | nil =>
    split
    · rfl
    · rfl
  | cons t targets ih =>
    have hcons : hitOf (t :: targets) row col = (hitOf [t] row col).or (hitOf targets row col) :=
      hitOf_append [t] targets row col
    rw [flatMap_cons, hitOf_append, ih, hitOf_cut, hcons]
    by_cases hcov : c.Covers row col
    · rw [if_pos hcov, if_pos hcov, if_pos (show row = c.line ∧ c.startCol ≤ col ∧ col < c.endCol from hcov)]
      rfl
    · rw [if_neg hcov, if_neg hcov, if_neg (show ¬ (row = c.line ∧ c.startCol ≤ col ∧ col < c.endCol) from hcov)]

theorem hitOf_covers (v : FullscreenViewport α) (covers : List Cover) (row col : Int) :
    hitOf (v.subtractCovers covers).frameClickTargets row col =
      if ∃ c ∈ covers, c.Covers row col then none else hitOf v.frameClickTargets row col := by
  induction covers generalizing v with
  | nil => simp [subtractCovers]
  | cons c covers ih =>
    rw [subtractCovers, foldl_cons]
    change hitOf ((v.subtractFrameClickCoverage c.line c.startCol c.endCol).subtractCovers covers).frameClickTargets
      row col = _
    rw [ih, hitOf_subtract]
    by_cases hc : c.Covers row col
    · simp [hc]
    · simp [hc]

/-! ### The rows of a region -/

theorem hitOf_entry (e : FrameClickEntry α) (row col : Int) : hitOf (entryTargets e) row col =
      if (e.fromRow ≤ row ∧ row < e.fromRow + e.count) ∧ e.region.col ≤ col ∧ col < e.region.col + e.region.width then
        some (e.region, e.anchor) else none := by
  have hrows : ∀ n : Nat, hitOf ((List.range n).map fun (k : Nat) =>
        (⟨e.fromRow + k, e.region.col, e.region.width, e.anchor, e.region⟩ : FrameClickTarget α)) row col =
      if (e.fromRow ≤ row ∧ row < e.fromRow + n) ∧ e.region.col ≤ col ∧ col < e.region.col + e.region.width then
        some (e.region, e.anchor)
      else none := by
    intro n
    induction n with
    | zero =>
      rw [if_neg (by omega)]
      rfl
    | succ n ih =>
      have hlast : hitOf [(⟨e.fromRow + n, e.region.col, e.region.width, e.anchor, e.region⟩ : FrameClickTarget α)]
          row col = if e.fromRow + n = row ∧ e.region.col ≤ col ∧ col < e.region.col + e.region.width then
            some (e.region, e.anchor) else none := by
        rw [hitOf, findSome?_singleton]
      rw [range_succ, map_append, hitOf_append, ih, map_singleton, hlast]
      by_cases hcol : e.region.col ≤ col ∧ col < e.region.col + e.region.width
      · simp only [hcol, and_self, and_true]
        by_cases hin : e.fromRow ≤ row ∧ row < e.fromRow + n
        · have hnext : e.fromRow ≤ row ∧ row < e.fromRow + (n + 1 : Nat) := by omega
          rw [if_pos hin, if_pos hnext, some_or]
        · rw [if_neg hin, none_or]
          refine if_congr ?_ rfl rfl
          omega
      · rw [if_neg (fun h => hcol h.2), if_neg (fun h => hcol h.2), if_neg (fun h => hcol h.2)]
        rfl
  rw [entryTargets, hrows]
  by_cases hcount : 0 ≤ e.count
  · rw [Int.toNat_of_nonneg hcount]
  · rw [if_neg (by omega), if_neg (by omega)]

/-- The rows of a projected region are those that show a line of it. -/
theorem projectRegion_lineAt (v : FullscreenViewport α) (area : Area) (region : ClickRegion α) (row col : Int) :
    ((v.projectRegion area region.line region.height).bind fun rows =>
        if (rows.fromRow ≤ row ∧ row < rows.fromRow + rows.count) ∧ 
            region.col ≤ col ∧ col < region.col + region.width then
          some (region, rows.anchor) else none) = (v.lineAt area row).bind fun line =>
        if Contains region line col then some (region, row - (line - region.line)) else none := by
  have hrows : ∀ (first count : Int) (f : Int → Int) (line : Int),
      ((projectRows region.line region.height first count f).bind fun rows =>
        if (rows.fromRow ≤ row ∧ row < rows.fromRow + rows.count) ∧ 
            region.col ≤ col ∧ col < region.col + region.width then
          some (region, rows.anchor)
        else none) =
      if (first ≤ row ∧ row < first + count) ∧ (f region.line ≤ row ∧ row < f region.line + max 1 region.height) ∧
          region.col ≤ col ∧ col < region.col + region.width then some (region, f region.line) else none := by
    intro first count f line
    rw [projectRows]
    split
    · rw [bind_some]
      refine if_congr ?_ rfl rfl
      dsimp only
      omega
    · rw [bind_none, if_neg (by omega)]
  cases area with
  | header =>
    simp only [projectRegion, projectHeaderRegion, lineAt]
    rw [hrows _ _ _ 0]
    by_cases hin : 0 ≤ row ∧ row < (v.lastHeaderHeight : Int)
    · rw [if_pos hin, bind_some]
      have hanchor : region.line - max 0 ((v.lastHeaderLines : Int) - v.lastHeaderHeight) =
          row - (row + (v.lastHeaderLines - v.lastHeaderHeight : Nat) - region.line) := by omega
      rw [hanchor]
      refine if_congr ?_ rfl rfl
      rw [Contains]
      omega
    · rw [if_neg hin, if_neg (by omega), bind_none]
  | transcript =>
    simp only [projectRegion, projectTranscriptRegion, lineAt]
    rw [hrows _ _ _ 0]
    by_cases hin : (v.lastHeaderHeight : Int) ≤ row ∧ row < v.lastHeaderHeight + v.lastWindowHeight
    · rw [if_pos hin, bind_some]
      have hanchor : (v.lastHeaderHeight : Int) - v.scrollTop + region.line =
          row - (row - v.lastHeaderHeight + v.scrollTop - region.line) := by omega
      rw [hanchor]
      refine if_congr ?_ rfl rfl
      rw [Contains]
      omega
    · rw [if_neg hin, if_neg (by omega), bind_none]
  | dock =>
    simp only [projectRegion, projectDockRegion, lineAt]
    rw [hrows _ _ _ 0]
    by_cases hin : (v.lastHeaderHeight : Int) + v.lastWindowHeight ≤ row ∧
        row < v.lastHeaderHeight + v.lastWindowHeight + v.lastDockHeight
    · rw [if_pos hin, bind_some]
      have hanchor : (v.lastHeaderHeight : Int) + v.lastWindowHeight + region.line -
            max 0 ((v.lastDockLines : Int) - v.lastDockHeight) =
          row - (row - (v.lastHeaderHeight + v.lastWindowHeight) + (v.lastDockLines - v.lastDockHeight : Nat) -
            region.line) := by omega
      rw [hanchor]
      refine if_congr ?_ rfl rfl
      rw [Contains]
      omega
    · rw [if_neg hin, if_neg (by omega), bind_none]

/-- The target of a region at the cell, with the row of its top line. -/
def anchoredAt (v : FullscreenViewport α) (row col : Int) (placed : Area × ClickRegion α) :
    Option (ClickRegion α × Int) :=
  (v.lineAt placed.1 row).bind fun line =>
    if Contains placed.2 line col then some (placed.2, row - (line - placed.2.line)) else none

theorem hitOf_projectRegions (v : FullscreenViewport α) (area : Area) (regions : List (ClickRegion α)) (row col : Int) :
    hitOf ((projectRegions regions (v.projectRegion area)).flatMap entryTargets) row col =
      (regions.map (area, ·)).findSome? (v.anchoredAt row col) := by
  induction regions with
  | nil => rfl
  | cons region regions ih =>
    have hone := v.projectRegion_lineAt area region row col
    rw [map_cons, findSome?_cons, anchoredAt, ← hone, projectRegions, filterMap_cons]
    cases hp : v.projectRegion area region.line region.height with
    | none => exact ih
    | some rows =>
      rw [map_some, bind_some]
      dsimp only
      rw [flatMap_cons, hitOf_append, hitOf_entry]
      dsimp only
      split
      · rfl
      · exact ih

theorem hitOf_frameClickEntries (v : FullscreenViewport α) (headerClickRegions transcriptClickRegions dockClickRegions :
    List (ClickRegion α)) (row col : Int) :
    hitOf ((v.frameClickEntries headerClickRegions transcriptClickRegions dockClickRegions).flatMap entryTargets)
        row col =
      (placedRegions headerClickRegions transcriptClickRegions dockClickRegions).findSome? (v.anchoredAt row col) := by
  have hheader := v.hitOf_projectRegions .header headerClickRegions row col
  have htranscript := v.hitOf_projectRegions .transcript transcriptClickRegions row col
  have hdock := v.hitOf_projectRegions .dock dockClickRegions row col
  rw [frameClickEntries, flatMap_append, flatMap_append, hitOf_append, hitOf_append, placedRegions,
    findSome?_append, findSome?_append, ← hheader, ← htranscript, ← hdock]
  rfl

/-! ### Clicks -/

/-- A click finds the first region that has the line and the column shown at the cell, unless the cell is covered. -/
theorem clickTargetAt_shown (v : FullscreenViewport α) (headerClickRegions transcriptClickRegions dockClickRegions :
    List (ClickRegion α)) (covers : List Cover) (row col : Int) :
    (((v.setFrameClickRegions (v.frameClickEntries headerClickRegions transcriptClickRegions
        dockClickRegions)).subtractCovers covers).clickTargetAt row col).map (fun t => (t.region, t.position row col)) =
      if row < 0 ∨ col < 0 ∨ ∃ c ∈ covers, c.Covers row col then none
      else (placedRegions headerClickRegions transcriptClickRegions dockClickRegions).findSome?
        (v.shownAt row col) := by
  by_cases hcell : row < 0 ∨ col < 0
  · rw [clickTargetAt, if_pos hcell, if_pos (hcell.imp_right .inl)]
    rfl
  · rw [clickTargetAt_hit _ hcell, hitOf_covers]
    by_cases hcov : ∃ c ∈ covers, c.Covers row col
    · rw [if_pos hcov, if_pos (.inr (.inr hcov))]
      rfl
    · have hfree : ¬ (row < 0 ∨ col < 0 ∨ ∃ c ∈ covers, c.Covers row col) := by
        rintro (h | h | h)
        · exact hcell (.inl h)
        · exact hcell (.inr h)
        · exact hcov h
      rw [if_neg hcov, if_neg hfree]
      change (hitOf ((v.frameClickEntries headerClickRegions transcriptClickRegions
        dockClickRegions).flatMap entryTargets) row col).map _ = _
      rw [hitOf_frameClickEntries]
      induction placedRegions headerClickRegions transcriptClickRegions dockClickRegions with
      | nil => rfl
      | cons placed rest ih =>
        rw [findSome?_cons, findSome?_cons, anchoredAt, shownAt]
        cases v.lineAt placed.1 row with
        | none => exact ih
        | some line =>
          rw [bind_some, bind_some]
          by_cases hin : Contains placed.2 line col
          · rw [if_pos hin, if_pos hin]
            simp only [map_some, Option.some.injEq, Prod.mk.injEq, ClickPosition.mk.injEq, true_and, and_true]
            omega
          · rw [if_neg hin, if_neg hin]
            exact ih

/-- On a composed frame: the rows have the text of the lines they show, and a click finds the first region that has
the line and the column shown at the cell, with the cell's offset from the region's top line. -/
theorem clickTargetAt_composed (M : Metrics) (v₀ : FullscreenViewport α) (transcript dock : List JsString)
    (height : Nat)
    (regions : List TableCellSelectionRegion) (header : List JsString)
    (headerClickRegions transcriptClickRegions dockClickRegions : List (ClickRegion α)) (covers : List Cover) :
    let composed := v₀.composeFrame M transcript dock height regions header
    let v := (composed.1.setFrameClickRegions (composed.1.frameClickEntries headerClickRegions transcriptClickRegions
      dockClickRegions)).subtractCovers covers
    (∀ area row line, composed.1.lineAt area row = some line → 0 ≤ row ∧ 0 ≤ line ∧
      composed.2[row.toNat]? = composed.1.areaLine M header transcript dock area line.toNat) ∧
    ∀ row col, (v.clickTargetAt row col).map (fun t => (t.region, t.position row col)) =
      if row < 0 ∨ col < 0 ∨ ∃ c ∈ covers, c.Covers row col then none
      else (placedRegions headerClickRegions transcriptClickRegions dockClickRegions).findSome?
        (composed.1.shownAt row col) := by
  constructor
  · intro area row line h
    exact v₀.composeFrame_row transcript dock height regions header h
  · intro row col
    exact clickTargetAt_shown _ headerClickRegions transcriptClickRegions dockClickRegions covers row col

/-- The lines 1 to 4 of six on a screen of three rows: the top row shows line 3, the third of the region. -/
theorem clickTargetAt_clipped : let region : ClickRegion Nat := ⟨1, 0, 2, 4, 0⟩
    let composed := (@initial Nat).composeFrame wideMetrics (List.replicate 6 (ofAscii "ab")) [] 3 [] []
    let v := (composed.1.setFrameClickRegions (composed.1.frameClickEntries [] [region] [])).subtractCovers [⟨0, 1, 2⟩]
    (v.clickTargetAt 0 0).map (fun t => (t.region, t.position 0 0)) = some (region, ⟨2, 0⟩) := by
  have hclick := (clickTargetAt_composed wideMetrics (@initial Nat) (List.replicate 6 (ofAscii "ab")) [] 3 [] []
    [] [⟨1, 0, 2, 4, 0⟩] [] [⟨0, 1, 2⟩]).2 0 0
  exact hclick.trans (by decide)

/-- Two regions on one cell: the second is shown there and not found. A region of no height is found on one row. -/
theorem clickTargetAt_overlap : let composed := (@initial Nat).composeFrame wideMetrics [ofAscii "ab"] [] 3 [] []
    let first : ClickRegion Nat := ⟨0, 0, 2, 1, 0⟩
    let second : ClickRegion Nat := ⟨0, 1, 1, 1, 1⟩
    let flat : ClickRegion Nat := ⟨0, 0, 2, 0, 2⟩
    let v := composed.1.setFrameClickRegions (composed.1.frameClickEntries [] [first, second] [])
    let w := composed.1.setFrameClickRegions (composed.1.frameClickEntries [] [flat] [])
    (composed.1.shownAt 0 1 (.transcript, second) = some (second, ⟨0, 0⟩) ∧
      (v.clickTargetAt 0 1).map (·.region) = some first) ∧
      (flat.height = 0 ∧ (w.clickTargetAt 0 1).map (·.region) = some flat) := by
  decide

end FullscreenViewport

end Tui
end RePrime
