import Mathlib.Data.List.Basic
import Mathlib.Algebra.GroupWithZero.Nat

/-!
# RePrime.Lib.Screen

A grid of cells with a cursor: what a terminal does with clusters that have a width, with cursor movements and with
erasures.

* `print`: a cluster at the cursor, on the next row when it does not fit.
* `printAll_fits`: clusters that fit stand side by side.
* `writeRow_cells`: a row that is erased and written holds the clusters, and the other rows are as before.
-/

namespace RePrime

variable {γ : Type}

/-- A cell holds a cluster and which of its columns this is; `none` is blank. -/
structure Screen (γ : Type) where
  width : Nat
  height : Nat
  row : Nat
  col : Nat
  cells : Nat → Nat → Option (γ × Nat)

namespace Screen

def blank (width height : Nat) : Screen γ := ⟨width, height, 0, 0, fun _ _ => none⟩

def erase (s : Screen γ) : Screen γ := { s with cells := fun _ _ => none }

/-- The row of the cursor. -/
def eraseRow (s : Screen γ) : Screen γ := { s with cells := fun r c => if r = s.row then none else s.cells r c }

/-- No further than the last row and column. -/
def moveTo (s : Screen γ) (row col : Nat) : Screen γ :=
  { s with row := min row (s.height - 1), col := min col (s.width - 1) }

/-- On the last row, the rows go up. -/
def lineFeed (s : Screen γ) : Screen γ :=
  if s.row + 1 < s.height then { s with row := s.row + 1 }
  else { s with cells := fun r c => if r + 1 < s.height then s.cells (r + 1) c else none }

def carriageReturn (s : Screen γ) : Screen γ := { s with col := 0 }

/-- A cluster of no width leaves the cells. -/
def print (s : Screen γ) (g : γ) (w : Nat) : Screen γ :=
  if w = 0 then s
  else
    let s := if s.width < s.col + w then s.lineFeed.carriageReturn else s
    { s with
      cells := fun r c => if r = s.row ∧ s.col ≤ c ∧ c < s.col + w then some (g, c - s.col) else s.cells r c
      col := s.col + w }

def printAll (s : Screen γ) (gs : List (γ × Nat)) : Screen γ := gs.foldl (fun s p => s.print p.1 p.2) s

/-- The cells of clusters side by side. -/
def clusterCells (gs : List (γ × Nat)) : List (γ × Nat) := gs.flatMap fun p => (List.range p.2).map fun k => (p.1, k)

def clustersWidth (gs : List (γ × Nat)) : Nat := (gs.map Prod.snd).sum

/-- The rows of the screen hold the clusters of the rows, and blanks after them. -/
def Shows (s : Screen γ) (rows : Nat → List (γ × Nat)) : Prop :=
  ∀ r < s.height, ∀ c, s.cells r c = (clusterCells (rows r))[c]?

theorem length_clusterCells (gs : List (γ × Nat)) : (clusterCells gs).length = clustersWidth gs := by
  induction gs with
  | nil => rfl
  | cons p gs ih =>
    rw [clusterCells, List.flatMap_cons, List.length_append, List.length_map, List.length_range, clustersWidth,
      List.map_cons, List.sum_cons]
    exact congrArg _ ih

theorem clusterCells_cons (p : γ × Nat) (gs : List (γ × Nat)) :
    clusterCells (p :: gs) = (List.range p.2).map (fun k => (p.1, k)) ++ clusterCells gs := List.flatMap_cons

theorem clustersWidth_cons (p : γ × Nat) (gs : List (γ × Nat)) :
    clustersWidth (p :: gs) = p.2 + clustersWidth gs := by
  rw [clustersWidth, List.map_cons, List.sum_cons]
  rfl

@[simp] theorem erase_height (s : Screen γ) : s.erase.height = s.height := rfl

@[simp] theorem erase_width (s : Screen γ) : s.erase.width = s.width := rfl

@[simp] theorem eraseRow_height (s : Screen γ) : s.eraseRow.height = s.height := rfl

@[simp] theorem eraseRow_width (s : Screen γ) : s.eraseRow.width = s.width := rfl

@[simp] theorem moveTo_height (s : Screen γ) (row col : Nat) : (s.moveTo row col).height = s.height := rfl

@[simp] theorem moveTo_width (s : Screen γ) (row col : Nat) : (s.moveTo row col).width = s.width := rfl

@[simp] theorem moveTo_cells (s : Screen γ) (row col : Nat) : (s.moveTo row col).cells = s.cells := rfl

variable {s : Screen γ}

theorem print_fits {g : γ} {w : Nat} (h : s.col + w ≤ s.width) : s.print g w = { s with
        cells := fun r c => if r = s.row ∧ s.col ≤ c ∧ c < s.col + w then some (g, c - s.col) else s.cells r c
        col := s.col + w } := by
  rw [print]
  by_cases hw : w = 0
  · subst hw
    rw [if_pos rfl]
    have hcells : (fun r c => if r = s.row ∧ s.col ≤ c ∧ c < s.col + 0 then some (g, c - s.col) else s.cells r c) =
        s.cells := by
      funext r c
      rw [if_neg (by omega)]
    rw [hcells]
    rfl
  · rw [if_neg hw, if_neg (by omega)]

variable {gs : List (γ × Nat)}

theorem printAll_fits (h : s.col + clustersWidth gs ≤ s.width) : s.printAll gs = { s with
        cells := fun r c => if r = s.row ∧ s.col ≤ c ∧ c < s.col + clustersWidth gs then
          (clusterCells gs)[c - s.col]? else s.cells r c
        col := s.col + clustersWidth gs } := by
  induction gs generalizing s with
  | nil =>
    have hcells : (fun r c => if r = s.row ∧ s.col ≤ c ∧ c < s.col + clustersWidth ([] : List (γ × Nat)) then
        (clusterCells ([] : List (γ × Nat)))[c - s.col]? else s.cells r c) = s.cells := by
      funext r c
      have hzero : clustersWidth ([] : List (γ × Nat)) = 0 := rfl
      rw [if_neg (by omega)]
    rw [hcells]
    rfl
  | cons p gs ih =>
    rw [clustersWidth_cons] at h
    have hstep : s.printAll (p :: gs) = (s.print p.1 p.2).printAll gs := rfl
    rw [hstep, print_fits (by omega), ih (by dsimp only; omega), clustersWidth_cons]
    have hcells : ∀ r c, (if r = s.row ∧ s.col + p.2 ≤ c ∧ c < s.col + p.2 + clustersWidth gs then
          (clusterCells gs)[c - (s.col + p.2)]?
        else if r = s.row ∧ s.col ≤ c ∧ c < s.col + p.2 then some (p.1, c - s.col) else s.cells r c) =
        if r = s.row ∧ s.col ≤ c ∧ c < s.col + (p.2 + clustersWidth gs) then
          (clusterCells (p :: gs))[c - s.col]? else s.cells r c := by
      intro r c
      have hlen : ((List.range p.2).map fun k => (p.1, k)).length = p.2 := by simp
      rw [clusterCells_cons]
      by_cases hlater : r = s.row ∧ s.col + p.2 ≤ c ∧ c < s.col + p.2 + clustersWidth gs
      · have hall : r = s.row ∧ s.col ≤ c ∧ c < s.col + (p.2 + clustersWidth gs) := by omega
        have hsub : c - s.col - p.2 = c - (s.col + p.2) := by omega
        rw [if_pos hlater, if_pos hall, List.getElem?_append_right (by omega), hlen, hsub]
      · rw [if_neg hlater]
        by_cases hown : r = s.row ∧ s.col ≤ c ∧ c < s.col + p.2
        · have hall : r = s.row ∧ s.col ≤ c ∧ c < s.col + (p.2 + clustersWidth gs) := by omega
          rw [if_pos hown, if_pos hall, List.getElem?_append_left (by omega), List.getElem?_map,
            List.getElem?_range (by omega)]
          rfl
        · have hnone : ¬ (r = s.row ∧ s.col ≤ c ∧ c < s.col + (p.2 + clustersWidth gs)) := by omega
          rw [if_neg hown, if_neg hnone]
    dsimp only
    rw [Nat.add_assoc]
    congr 1
    funext r c
    rw [← hcells r c, Nat.add_assoc]

/-- Go to a row, erase it and write it. -/
def writeRow (s : Screen γ) (row : Nat) (gs : List (γ × Nat)) : Screen γ := ((s.moveTo row 0).eraseRow).printAll gs

theorem writeRow_size {row : Nat} (h : clustersWidth gs ≤ s.width) :
    (s.writeRow row gs).width = s.width ∧ (s.writeRow row gs).height = s.height := by
  have hcol : (s.moveTo row 0).eraseRow.col = 0 := Nat.zero_min _
  rw [writeRow, printAll_fits (by rw [hcol, Nat.zero_add]; exact h)]
  exact ⟨rfl, rfl⟩

theorem writeRow_cells {row : Nat} (hrow : row < s.height) (h : clustersWidth gs ≤ s.width) (r c : Nat) :
    (s.writeRow row gs).cells r c = if r = row then (clusterCells gs)[c]? else s.cells r c := by
  have hcol : (s.moveTo row 0).eraseRow.col = 0 := Nat.zero_min _
  have hat : (s.moveTo row 0).eraseRow.row = row := by
    change min row (s.height - 1) = row
    omega
  have hcells : (s.moveTo row 0).eraseRow.cells r c = if r = row then none else s.cells r c := by
    change (if r = min row (s.height - 1) then none else s.cells r c) = _
    rw [show min row (s.height - 1) = row by omega]
  rw [writeRow, printAll_fits (by rw [hcol, Nat.zero_add]; exact h)]
  dsimp only
  rw [hcol, hat, hcells, Nat.zero_add, Nat.sub_zero]
  by_cases hr : r = row
  · rw [if_pos hr, if_pos hr]
    split
    · rfl
    · rw [List.getElem?_eq_none (by rw [length_clusterCells]; omega)]
  · rw [if_neg hr, if_neg hr, if_neg (by omega)]

end Screen

end RePrime
