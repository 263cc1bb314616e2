import RePrime.Tui.CompositeColumns
import RePrime.Tui.PasteExpansion
import RePrime.Tui.WrapContent

/-!
# RePrime.Tui.WordWrapRows

The chunks of `wordWrapLine` as rows of whole graphemes, and when the call returns.

A segmentation of a line is a cut of its graphemes into parts: single graphemes, and the graphemes of a marker. The
loop is followed on the graphemes: the rows that are closed, those of the open row, and those to come.

* `Wrapped`: what the chunks of a line are to be.
* `wrapSegments_rows`: the loop closes rows that fit.
* `wordWrapLine_iff`: the chunks are as they should be exactly when there is a line and it fits or each of its
  graphemes does.
-/

namespace RePrime
namespace Tui

open List
open JsText (isDigit ofAscii)

variable (M : Metrics)

/-! ### Segmentations -/

def rowWidth (row : List JsString) : Nat := (row.map (visibleWidth M)).sum

/-- Pieces of a text have the graphemes that they have in it, and are no wider than these one by one. -/
structure Graphemic (text : JsString) : Prop where
  divides : ∀ gs, gs <:+: M.segment text → M.segment gs.flatten = gs
  width_le : ∀ gs, gs <:+: M.segment text → visibleWidth M gs.flatten ≤ rowWidth M gs

/-- A grapheme, or the graphemes of an atomic marker. -/
def IsPart (part : List JsString) : Prop :=
  (∃ g, part = [g]) ∨ (part ≠ [] ∧ isAtomicMarker part.flatten = true)

/-- The segments of a text: its graphemes, with those of some markers taken together. -/
def Segmentation (text : JsString) (segs : List Seg) : Prop :=
  ∃ parts : List (List JsString), parts.flatten = M.segment text ∧ segs = indexedFrom 0 (parts.map List.flatten) ∧
    ∀ part ∈ parts, IsPart part

/-- Rows of graphemes as chunks, the first at `pos`. -/
def chunksAt : Nat → List (List JsString) → List TextChunk
  | _, [] => []
  | pos, row :: rows => ⟨row.flatten, pos, pos + row.flatten.length⟩ :: chunksAt (pos + row.flatten.length) rows

/-- Slices of the line one after the other that are together the line, none of them empty, and no wider than the width
unless one is a single grapheme. -/
structure Wrapped (line : JsString) (maxWidth : Nat) (chunks : List TextChunk) : Prop where
  covers : Chunks line.length 0 chunks
  text : (chunks.map (·.text)).flatten = line
  ne_nil : ∀ chunk ∈ chunks, chunk.text ≠ []
  fits : ∀ chunk ∈ chunks, visibleWidth M chunk.text ≤ maxWidth ∨ chunk.text ∈ M.segment line

variable {M}

variable {part : List JsString}

theorem isPart_ne_nil (h : IsPart part) : part ≠ [] := by
  rcases h with ⟨g, rfl⟩ | ⟨hne, -⟩
  · exact cons_ne_nil _ _
  · exact hne

theorem rowWidth_append (a b : List JsString) : rowWidth M (a ++ b) = rowWidth M a + rowWidth M b := by
  rw [rowWidth, map_append, sum_append]
  rfl

theorem rowWidth_cons (g : JsString) (row : List JsString) :
    rowWidth M (g :: row) = visibleWidth M g + rowWidth M row :=
  rfl

theorem rowWidth_singleton (g : JsString) : rowWidth M [g] = visibleWidth M g := by
  simp [rowWidth]

variable {g : JsString}

theorem le_rowWidth {row : List JsString} (h : g ∈ row) : visibleWidth M g ≤ rowWidth M row := by
  obtain ⟨front, back, rfl⟩ := append_of_mem h
  rw [rowWidth_append, rowWidth_cons]
  omega

theorem Graphemic.of_infix {text : JsString} (h : Graphemic M text) {gs : List JsString}
    (hgs : gs <:+: M.segment text) :
    Graphemic M gs.flatten := by
  have hseg := h.divides gs hgs
  constructor
  · intro gs' hgs'
    rw [hseg] at hgs'
    exact h.divides gs' (hgs'.trans hgs)
  · intro gs' hgs'
    rw [hseg] at hgs'
    exact h.width_le gs' (hgs'.trans hgs)

theorem flatten_singles (gs : List JsString) : (gs.map fun g => [g]).flatten = gs := by
  rw [← flatMap_def]
  simp

theorem baseSegments_eq (text : JsString) :
    baseSegments M text = indexedFrom 0 (((M.segment text).map fun g => [g]).map List.flatten) := by
  rw [baseSegments, map_map]
  congr 1
  simp [Function.comp_def]

theorem segmentation_base (text : JsString) : Segmentation M text (baseSegments M text) := by
  refine ⟨(M.segment text).map fun g => [g], flatten_singles _, baseSegments_eq text, fun part hpart => ?_⟩
  obtain ⟨g, -, rfl⟩ := mem_map.mp hpart
  exact .inl ⟨g, rfl⟩

/-! ### Rows as chunks -/

theorem chunksAt_append (pos : Nat) (rows rows' : List (List JsString)) :
    chunksAt pos (rows ++ rows') = chunksAt pos rows ++ chunksAt (pos + rows.flatten.flatten.length) rows' := by
  induction rows generalizing pos with
  | nil => rfl
  | cons row rows ih =>
    rw [cons_append, chunksAt, chunksAt, ih, cons_append, flatten_cons, flatten_append,
      length_append, Nat.add_assoc]

theorem chunksAt_text (pos : Nat) (rows : List (List JsString)) :
    (chunksAt pos rows).map (·.text) = rows.map List.flatten := by
  induction rows generalizing pos with
  | nil => rfl
  | cons row rows ih => rw [chunksAt, map_cons, map_cons, ih]

theorem chunksAt_chunks (pos : Nat) (rows : List (List JsString)) :
    Chunks (pos + rows.flatten.flatten.length) pos (chunksAt pos rows) := by
  induction rows generalizing pos with
  | nil => rfl
  | cons row rows ih =>
    refine ⟨rfl, rfl, ?_⟩
    rw [flatten_cons, flatten_append, length_append, ← Nat.add_assoc]
    exact ih _

theorem chunksAt_shift (k pos : Nat) (rows : List (List JsString)) :
    ((chunksAt pos rows).map fun c => (⟨c.text, k + c.startIndex, k + c.endIndex⟩ : TextChunk)) =
      chunksAt (k + pos) rows := by
  induction rows generalizing pos with
  | nil => rfl
  | cons row rows ih =>
    rw [chunksAt, chunksAt, map_cons, ih, Nat.add_assoc]

def RowFits (M : Metrics) (maxWidth : Nat) (row : List JsString) : Prop := row ≠ [] ∧ rowWidth M row ≤ maxWidth

theorem wrapped_of_rows {line : JsString} {maxWidth : Nat} {rows : List (List JsString)} (hG : Graphemic M line)
    (hrows : rows.flatten = M.segment line) (hfit : ∀ row ∈ rows, RowFits M maxWidth row) :
    Wrapped M line maxWidth (chunksAt 0 rows) := by
  have hflat : rows.flatten.flatten = line := by rw [hrows, M.segment_flatten]
  have hmem : ∀ chunk ∈ chunksAt 0 rows, ∃ row ∈ rows, chunk.text = row.flatten := by
    intro chunk hchunk
    have htext : chunk.text ∈ rows.map List.flatten := by
      rw [← chunksAt_text 0 rows]
      exact mem_map_of_mem hchunk
    obtain ⟨row, hrow, heq⟩ := mem_map.mp htext
    exact ⟨row, hrow, heq.symm⟩
  constructor
  · have hchunks := chunksAt_chunks 0 rows
    rwa [hflat, Nat.zero_add] at hchunks
  · rw [chunksAt_text, ← hflat, flatten_flatten]
  · intro chunk hchunk
    obtain ⟨row, hrow, htext⟩ := hmem chunk hchunk
    obtain ⟨g, hg⟩ := exists_mem_of_ne_nil row (hfit row hrow).1
    have hne : g ≠ [] := by
      refine M.segment_ne_nil line g ?_
      rw [← hrows]
      exact mem_flatten.mpr ⟨row, hrow, hg⟩
    intro hnil
    exact hne (flatten_eq_nil_iff.mp (htext.symm.trans hnil) g hg)
  · intro chunk hchunk
    obtain ⟨row, hrow, htext⟩ := hmem chunk hchunk
    have hinfix : row <:+: M.segment line := by
      obtain ⟨front, back, heq⟩ := append_of_mem hrow
      exact ⟨front.flatten, back.flatten, by rw [← hrows, heq]; simp⟩
    have hle := hG.width_le row hinfix
    exact .inl (htext ▸ hle.trans (hfit row hrow).2)

/-! ### The loop -/

/-- The variables of the loop, by the rows that are closed and the graphemes of the open row. A place to wrap cuts
the open row in two. -/
structure Rowing (M : Metrics) (maxWidth : Nat) (rows : List (List JsString)) (cur : List JsString)
    (st : WordWrapState) : Prop where
  chunks : st.chunks = chunksAt 0 rows
  start : st.chunkStart = rows.flatten.flatten.length
  fits : ∀ row ∈ rows, RowFits M maxWidth row
  width : st.currentWidth = rowWidth M cur
  current : st.currentWidth ≤ maxWidth
  opportunity : ∀ i ∈ st.wrapOppIndex, ∃ a b, cur = a ++ b ∧ a ≠ [] ∧ i = st.chunkStart + a.flatten.length ∧
    st.wrapOppWidth = rowWidth M a

variable {line : JsString} {maxWidth : Nat} {rows : List (List JsString)} {cur rest : List JsString}
  {st : WordWrapState}

theorem chunkOf_row {lo hi : Nat} (row : List JsString) (hline : rows.flatten ++ row ++ rest = M.segment line)
    (hlo : lo = rows.flatten.flatten.length) (hhi : hi = lo + row.flatten.length) :
    [chunkOf line lo hi] = chunksAt rows.flatten.flatten.length [row] := by
  have hflat : line = rows.flatten.flatten ++ (row.flatten ++ rest.flatten) := by
    rw [← M.segment_flatten line, ← hline]
    simp only [flatten_append, append_assoc]
  rw [chunkOf, hhi, Nat.add_sub_cancel_left, hlo, chunksAt, chunksAt]
  congr 2
  rw [hflat, drop_left, take_left]

theorem Rowing.closeRow (h : Rowing M maxWidth rows cur st) {a b : List JsString}
    (hline : rows.flatten ++ (a ++ b) ++ rest = M.segment line) (ha : a ≠ []) (hfit : rowWidth M a ≤ maxWidth)
    {i : Nat} (hi : i = st.chunkStart + a.flatten.length) {width : Nat} (hb : width = rowWidth M b)
    (hwidth : width ≤ maxWidth) : Rowing M maxWidth (rows ++ [a]) b { st with
        chunks := st.chunks ++ [chunkOf line st.chunkStart i]
        chunkStart := i
        currentWidth := width
        wrapOppIndex := none } := by
  refine ⟨?_, ?_, ?_, hb, hwidth, nofun⟩
  · have hline' : rows.flatten ++ a ++ (b ++ rest) = M.segment line := by
      rw [← hline]
      simp only [append_assoc]
    dsimp only
    rw [chunksAt_append, Nat.zero_add, ← chunkOf_row a hline' h.start hi, h.chunks]
  · dsimp only
    rw [hi, h.start]
    simp
  · intro row hrow
    rcases mem_append.mp hrow with hrow | hrow
    · exact h.fits row hrow
    · rw [mem_singleton.mp hrow]
      exact ⟨ha, hfit⟩

/-- The break of the overflow check where there is no place to wrap. -/
def WordWrapState.breakAt (line : JsString) (pos : Nat) (st : WordWrapState) : WordWrapState :=
  if st.chunkStart < pos then
    { st with
      chunks := st.chunks ++ [chunkOf line st.chunkStart pos]
      chunkStart := pos
      currentWidth := 0
      wrapOppIndex := none }
  else { st with wrapOppIndex := none }

variable {pos : Nat}

theorem Rowing.breakAt (h : Rowing M maxWidth rows cur st) (hline : rows.flatten ++ cur ++ rest = M.segment line)
    (hpos : pos = st.chunkStart + cur.flatten.length) :
    ∃ rows', rows'.flatten = rows.flatten ++ cur ∧ Rowing M maxWidth rows' [] (st.breakAt line pos) := by
  unfold WordWrapState.breakAt
  by_cases hnil : cur = []
  · subst hnil
    rw [if_neg (by simp [hpos])]
    exact ⟨rows, (append_nil _).symm, h.chunks, h.start, h.fits, h.width, h.current, nofun⟩
  · have hlt : st.chunkStart < pos := by
      obtain ⟨g, hg⟩ := exists_mem_of_ne_nil cur hnil
      have hlen := length_pos_of_ne_nil (M.segment_ne_nil line g (by rw [← hline]; simp [hg]))
      have hle := (sublist_flatten_of_mem hg).length_le
      omega
    have hline' : rows.flatten ++ (cur ++ []) ++ rest = M.segment line := by rwa [append_nil]
    rw [if_pos hlt]
    exact ⟨rows ++ [cur], by simp, h.closeRow hline' hnil (h.width ▸ h.current) hpos rfl (Nat.zero_le _)⟩

/-- The overflow check leaves room for a segment that fits, and closes the row before one that does not. -/
theorem wrapOverflow_rows (h : Rowing M maxWidth rows cur st) (hline : rows.flatten ++ cur ++ rest = M.segment line)
    (hpos : pos = st.chunkStart + cur.flatten.length) (gWidth : Nat) :
    ∃ rows' cur', rows'.flatten ++ cur' = rows.flatten ++ cur ∧
      Rowing M maxWidth rows' cur' (wrapOverflow line maxWidth gWidth pos st) ∧
      (gWidth ≤ maxWidth → (wrapOverflow line maxWidth gWidth pos st).currentWidth + gWidth ≤ maxWidth) ∧
      (maxWidth < gWidth → cur' = []) := by
  have hbreak : ∃ rows' cur', rows'.flatten ++ cur' = rows.flatten ++ cur ∧
      Rowing M maxWidth rows' cur' (st.breakAt line pos) ∧
      (gWidth ≤ maxWidth → (st.breakAt line pos).currentWidth + gWidth ≤ maxWidth) ∧
        (maxWidth < gWidth → cur' = []) := by
    obtain ⟨rows', hrows, hrowing⟩ := h.breakAt hline hpos
    refine ⟨rows', [], ?_, hrowing, fun hle => ?_, fun _ => rfl⟩
    · rw [append_nil, hrows]
    · rw [hrowing.width]
      exact (Nat.zero_add gWidth).trans_le hle
  unfold wrapOverflow
  dsimp only
  split
  · split
    · rename_i i hi
      obtain ⟨a, b, rfl, ha, hai, hopp⟩ := h.opportunity i hi
      have hcurrent := h.current
      have hsum := h.width
      rw [rowWidth_append] at hsum
      split
      · rename_i hroom
        refine ⟨rows ++ [a], b, by simp, ?_, fun _ => hroom, fun hwide => ?_⟩
        · exact h.closeRow hline ha (by omega) hai (by omega) (by omega)
        · omega
      · exact hbreak
    · exact hbreak
  · rename_i hfits
    exact ⟨rows, cur, rfl, h, fun _ => by omega, fun hwide => by omega⟩

theorem Rowing.advance (h : Rowing M maxWidth rows cur st) {gWidth : Nat}
    (hwidth : gWidth = rowWidth M part) (hroom : st.currentWidth + gWidth ≤ maxWidth) :
    Rowing M maxWidth rows (cur ++ part) { st with currentWidth := st.currentWidth + gWidth } := by
  refine ⟨h.chunks, h.start, h.fits, ?_, hroom, fun i hi => ?_⟩
  · rw [rowWidth_append, hwidth, h.width]
  · obtain ⟨a, b, rfl, ha, hai, hopp⟩ := h.opportunity i hi
    exact ⟨a, b ++ part, append_assoc _ _ _, ha, hai, hopp⟩

theorem Rowing.nested (h : Rowing M maxWidth rows [] st) {sub : List (List JsString)} (hne : sub ≠ [])
    (hsub : ∀ row ∈ sub, RowFits M maxWidth row) (hexact : ∀ row ∈ sub, visibleWidth M row.flatten = rowWidth M row)
    (hpos : pos = st.chunkStart) : ∃ rows' cur', rows'.flatten ++ cur' = rows.flatten ++ sub.flatten ∧ cur' ≠ [] ∧
      Rowing M maxWidth rows' cur' (wrapNested M pos (chunksAt 0 sub) st) := by
  obtain ⟨front, last, rfl⟩ := eq_nil_or_concat' sub |>.resolve_left hne
  have hmem : last ∈ front ++ [last] := mem_append_right _ mem_cons_self
  have hlast := hsub last hmem
  have hchunks : chunksAt 0 (front ++ [last]) = chunksAt 0 front ++
      [⟨last.flatten, front.flatten.flatten.length, front.flatten.flatten.length + last.flatten.length⟩] := by
    rw [chunksAt_append, Nat.zero_add]
    rfl
  refine ⟨rows ++ front, last, by simp, hlast.1, ?_⟩
  have hstart : pos + front.flatten.flatten.length = (rows ++ front).flatten.flatten.length := by
    rw [hpos, h.start]
    simp
  unfold wrapNested
  rw [hchunks, getLastD_concat, dropLast_concat]
  refine ⟨?_, hstart, ?_, hexact last hmem, (hexact last hmem).trans_le hlast.2, nofun⟩
  · dsimp only
    rw [chunksAt_shift, h.chunks, chunksAt_append, hpos, h.start, Nat.zero_add, Nat.add_zero]
  · intro row hrow
    rcases mem_append.mp hrow with hrow | hrow
    · exact h.fits row hrow
    · exact hsub row (mem_append_left _ hrow)

/-- A segment that fits has the width of its graphemes; one that does not is wrapped to rows that do. -/
structure Wrappable (M : Metrics) (maxWidth : Nat) (rewrap : JsString → Option (List TextChunk))
    (part : List JsString) : Prop where
  ne_nil : part ≠ []
  width : visibleWidth M part.flatten = rowWidth M part
  rewraps : maxWidth < visibleWidth M part.flatten → ∃ sub, sub.flatten = part ∧ (∀ row ∈ sub, RowFits M maxWidth row) ∧
    (∀ row ∈ sub, visibleWidth M row.flatten = rowWidth M row) ∧ rewrap part.flatten = some (chunksAt 0 sub)

variable {rewrap : JsString → Option (List TextChunk)}

theorem wrapSegment_rows (h : Rowing M maxWidth rows cur st)
    (hline : rows.flatten ++ cur ++ (part ++ rest) = M.segment line)
    (hpos : pos = st.chunkStart + cur.flatten.length) {next : Option Seg}
    (hnext : ∀ n ∈ next, n.index = pos + part.flatten.length) (hpart : Wrappable M maxWidth rewrap part) :
    ∃ rows' cur' st', wrapSegment M rewrap line maxWidth st ⟨part.flatten, pos⟩ next = some st' ∧
      rows'.flatten ++ cur' = rows.flatten ++ cur ++ part ∧ cur' ≠ [] ∧ Rowing M maxWidth rows' cur' st' := by
  obtain ⟨rows₁, cur₁, hrows₁, h₁, hroom, hwide⟩ := wrapOverflow_rows h hline hpos (visibleWidth M part.flatten)
  have hpos₁ : pos = (wrapOverflow line maxWidth (visibleWidth M part.flatten) pos st).chunkStart +
      cur₁.flatten.length := by
    have hlen := congrArg (·.flatten.length) hrows₁
    simp only [flatten_append, length_append] at hlen
    have := h.start
    have := h₁.start
    omega
  unfold wrapSegment
  dsimp only
  generalize wrapOverflow line maxWidth (visibleWidth M part.flatten) pos st = st₁ at h₁ hroom hpos₁
  split
  · rename_i hgt
    obtain ⟨sub, hflat, hsub, hexact, hre⟩ := hpart.rewraps hgt
    obtain rfl := hwide hgt
    rw [append_nil] at hrows₁
    have hne : sub ≠ [] := by
      rintro rfl
      exact hpart.ne_nil hflat.symm
    have hstart : pos = st₁.chunkStart := hpos₁
    obtain ⟨rows', cur', hrows', hcur', h'⟩ := h₁.nested hne hsub hexact hstart
    refine ⟨rows', cur', _, by rw [hre]; rfl, ?_, hcur', h'⟩
    rw [hrows', hrows₁, hflat]
  · rename_i hle
    have h₂ := h₁.advance hpart.width (hroom (Nat.not_lt.mp hle))
    have hcur : cur₁ ++ part ≠ [] := by simp [hpart.ne_nil]
    have hrows : rows₁.flatten ++ (cur₁ ++ part) = rows.flatten ++ cur ++ part := by
      rw [← append_assoc, hrows₁]
    cases hopp : wrapOpportunity part.flatten next with
    | none => exact ⟨rows₁, cur₁ ++ part, _, rfl, hrows, hcur, h₂⟩
    | some i =>
      refine ⟨rows₁, cur₁ ++ part, _, rfl, hrows, hcur, h₂.chunks, h₂.start, h₂.fits, h₂.width, h₂.current, ?_⟩
      intro j hj
      cases hj
      -- the place to wrap is where the next segment starts
      unfold wrapOpportunity at hopp
      split_ifs at hopp
      obtain ⟨n, hn, rfl⟩ := Option.map_eq_some_iff.mp hopp
      have hindex := hnext n (Option.filter_eq_some_iff.mp hn).1
      refine ⟨cur₁ ++ part, [], (append_nil _).symm, hcur, ?_, h₂.width⟩
      rw [hindex, hpos₁, flatten_append, length_append, Nat.add_assoc]

/-- **The loop** closes rows of whole graphemes that fit, and leaves the last one open. -/
theorem wrapSegments_rows {parts : List (List JsString)} (h : Rowing M maxWidth rows cur st)
    (hline : rows.flatten ++ cur ++ parts.flatten = M.segment line)
    (hpos : pos = st.chunkStart + cur.flatten.length) (hparts : ∀ part ∈ parts, Wrappable M maxWidth rewrap part)
    (hne : cur ≠ [] ∨ parts ≠ []) :
    ∃ rows' cur' st', wrapSegments M rewrap line maxWidth st (indexedFrom pos (parts.map List.flatten)) = some st' ∧
      rows'.flatten ++ cur' = M.segment line ∧ cur' ≠ [] ∧ Rowing M maxWidth rows' cur' st' := by
  induction parts generalizing rows cur st pos with
  | nil =>
    rw [flatten_nil, append_nil] at hline
    exact ⟨rows, cur, st, rfl, hline, hne.resolve_right (fun hn => hn rfl), h⟩
  | cons part parts ih =>
    have hnext : ∀ n ∈ (indexedFrom (pos + part.flatten.length) (parts.map List.flatten)).head?,
        n.index = pos + part.flatten.length := by
      intro n hn
      cases parts with
      | nil => cases hn
      | cons next parts =>
        cases hn
        rfl
    obtain ⟨rows₁, cur₁, st₁, hrun, hrows₁, hcur₁, h₁⟩ :=
      wrapSegment_rows h hline hpos hnext (hparts part mem_cons_self)
    have hpos₁ : pos + part.flatten.length = st₁.chunkStart + cur₁.flatten.length := by
      have hlen := congrArg (·.flatten.length) hrows₁
      simp only [flatten_append, length_append] at hlen
      have := h.start
      have := h₁.start
      omega
    have hline₁ : rows₁.flatten ++ cur₁ ++ parts.flatten = M.segment line := by
      rw [hrows₁, ← hline, flatten_cons, append_assoc, append_assoc]
    rw [map_cons, indexedFrom, wrapSegments, hrun, Option.bind_some]
    exact ih h₁ hline₁ hpos₁ (fun part hp => hparts part (mem_cons_of_mem _ hp)) (.inl hcur₁)

theorem wordWrapWith_rows {parts : List (List JsString)} (hparts : parts.flatten = M.segment line)
    (hwrap : ∀ part ∈ parts, Wrappable M maxWidth rewrap part) (hmax : 0 < maxWidth)
    (hwide : maxWidth < visibleWidth M line) :
    ∃ rows, rows.flatten = M.segment line ∧ (∀ row ∈ rows, RowFits M maxWidth row) ∧
      wordWrapWith M rewrap line maxWidth (indexedFrom 0 (parts.map List.flatten)) = some (chunksAt 0 rows) := by
  have hline : line ≠ [] := by
    rintro rfl
    exact absurd hwide (Nat.not_lt_zero _)
  have hne : parts ≠ [] := by
    rintro rfl
    exact hline (by rw [← M.segment_flatten line, ← hparts]; rfl)
  have hinit : Rowing M maxWidth [] [] ⟨[], 0, 0, none, 0⟩ := ⟨rfl, rfl, nofun, rfl, Nat.zero_le _, nofun⟩
  have hpos : 0 = 0 + ([] : List JsString).flatten.length := rfl
  obtain ⟨rows, cur, st, hrun, hrows, hcur, h⟩ := wrapSegments_rows hinit hparts hpos hwrap (.inr hne)
  have hflat : rows.flatten.flatten ++ cur.flatten = line := by
    rw [← flatten_append, hrows, M.segment_flatten]
  refine ⟨rows ++ [cur], by simpa using hrows, ?_, ?_⟩
  · intro row hrow
    rcases mem_append.mp hrow with hrow | hrow
    · exact h.fits row hrow
    · rw [mem_singleton.mp hrow]
      exact ⟨hcur, h.width ▸ h.current⟩
  · have hlast : (⟨line.drop st.chunkStart, st.chunkStart, line.length⟩ : TextChunk) =
        ⟨cur.flatten, rows.flatten.flatten.length, rows.flatten.flatten.length + cur.flatten.length⟩ := by
      rw [h.start, ← hflat, drop_left, length_append]
    rw [wordWrapWith, if_neg (by simp [hline, Nat.ne_of_gt hmax]), if_neg (Nat.not_le.mpr hwide), hrun, Option.map_some,
      h.chunks, hlast, chunksAt_append, Nat.zero_add]
    rfl

/-! ### Markers -/

theorem isPrintableAscii_of_isMarkerUnit {u : UInt16} (h : isMarkerUnit u = true) : 0x20 ≤ u ∧ u ≤ 0x7e := by
  rcases Bool.or_eq_true_iff.mp h with h | h
  · rw [isDigit, Bool.and_eq_true, decide_eq_true_eq, decide_eq_true_eq] at h
    exact ⟨UInt16.le_trans (by decide) h.1, UInt16.le_trans h.2 (by decide)⟩
  · have hall : ∀ v ∈ ofAscii "[paste #+line chars]", 0x20 ≤ v ∧ v ≤ 0x7e := by decide
    exact hall u (contains_iff_mem.mp h)

variable {s : JsString}

theorem printable_of_atomic (h : isAtomicMarker s = true) : ∀ u ∈ s, 0x20 ≤ u ∧ u ≤ 0x7e := by
  obtain ⟨-, h⟩ := Bool.and_eq_true_iff.mp h
  rcases Bool.or_eq_true_iff.mp h with h | h
  · cases hmarker : pasteMarker s with
    | none =>
      rw [hmarker] at h
      cases h
    | some p =>
      obtain ⟨digits, rest⟩ := p
      obtain ⟨raw, hraw, rfl⟩ := pasteMarker_iff.mp hmarker
      have hnil : rest = [] := by simpa [hmarker] using h
      intro u hu
      rw [hnil, append_nil] at hu
      exact isPrintableAscii_of_isMarkerUnit (hraw.isMarkerUnit u hu)
  · obtain ⟨digits, hdigits, rfl⟩ := imageMarker_eq_some.mp (eq_of_beq h)
    intro u hu
    have hword : ∀ v ∈ imageOpen ++ ofAscii "]", 0x20 ≤ v ∧ v ≤ 0x7e := by decide
    rcases mem_append.mp hu with hu | hu
    · exact hword u (mem_append_left _ hu)
    rw [append_nil] at hu
    rcases mem_append.mp hu with hu | hu
    · refine isPrintableAscii_of_isMarkerUnit ?_
      rw [isMarkerUnit, hdigits.2 u hu, Bool.true_or]
    · exact hword u (mem_append_right _ hu)

theorem visibleWidth_row {row : List JsString} (h : ∀ u ∈ row.flatten, 0x20 ≤ u ∧ u ≤ 0x7e) :
    visibleWidth M row.flatten = rowWidth M row := by
  rw [visibleWidth_printable h]
  induction row with
  | nil => rfl
  | cons g row ih =>
    have hg : visibleWidth M g = g.length := visibleWidth_printable fun u hu => h u (mem_append_left _ hu)
    have hrow := ih fun u hu => h u (mem_append_right _ hu)
    rw [flatten_cons, length_append, hrow, ← hg, rowWidth_cons]

theorem IsPart.width (h : IsPart part) : visibleWidth M part.flatten = rowWidth M part := by
  rcases h with ⟨g, rfl⟩ | ⟨-, hatomic⟩
  · rw [rowWidth_singleton, flatten_singleton]
  · exact visibleWidth_row (printable_of_atomic hatomic)

theorem wrappable_single (h : visibleWidth M g ≤ maxWidth) : Wrappable M maxWidth rewrap [g] := by
  refine ⟨cons_ne_nil _ _, ?_, fun hwide => ?_⟩
  · rw [rowWidth_singleton, flatten_singleton]
  · rw [flatten_singleton] at hwide
    omega

/-- A text of graphemes that fit is wrapped grapheme by grapheme. -/
theorem wordWrapGraphemes_rows (hmax : 0 < maxWidth) (hwide : maxWidth < visibleWidth M line)
    (hfit : ∀ g ∈ M.segment line, visibleWidth M g ≤ maxWidth) (depth : Nat) :
    ∃ rows, rows.flatten = M.segment line ∧ (∀ row ∈ rows, RowFits M maxWidth row) ∧
      wordWrapGraphemes M (depth + 1) line maxWidth = some (chunksAt 0 rows) := by
  rw [wordWrapGraphemes, baseSegments_eq]
  refine wordWrapWith_rows (flatten_singles _) (fun part hpart => ?_) hmax hwide
  obtain ⟨g, hg, rfl⟩ := mem_map.mp hpart
  exact wrappable_single (hfit g hg)

theorem wrappable_part (hG : Graphemic M line) (hmax : 0 < maxWidth) (hpart : IsPart part)
    (hwithin : part <:+: M.segment line) (hfit : ∀ g ∈ part, visibleWidth M g ≤ maxWidth) :
    Wrappable M maxWidth (fun s => wordWrapGraphemes M s.length s maxWidth) part := by
  refine ⟨isPart_ne_nil hpart, hpart.width, fun hwide => ?_⟩
  rcases hpart with ⟨g, rfl⟩ | ⟨hne, hatomic⟩
  · rw [flatten_singleton] at hwide
    exact absurd (hfit g mem_cons_self) (Nat.not_le.mpr hwide)
  · have hseg := hG.divides part hwithin
    have hprintable := printable_of_atomic hatomic
    obtain ⟨depth, hdepth⟩ : ∃ depth, part.flatten.length = depth + 1 := by
      refine Nat.exists_eq_succ_of_ne_zero fun hzero => ?_
      rw [length_eq_zero_iff.mp hzero] at hwide
      exact absurd hwide (Nat.not_lt_zero _)
    obtain ⟨rows, hrows, hfits, hwrap⟩ :=
      wordWrapGraphemes_rows hmax hwide (fun g hg => hfit g (hseg ▸ hg)) depth
    refine ⟨rows, hrows.trans hseg, hfits, fun row hrow => visibleWidth_row fun u hu => ?_, ?_⟩
    · refine hprintable u ?_
      rw [← hseg, ← hrows]
      obtain ⟨g, hg, hu⟩ := mem_flatten.mp hu
      exact mem_flatten.mpr ⟨g, mem_flatten.mpr ⟨row, hrow, hg⟩, hu⟩
    · rw [hdepth]
      exact hwrap

/-! ### Graphemes that do not fit -/

theorem wrapSegments_none {segs : List Seg} {seg : Seg} (hmem : seg ∈ segs)
    (hwide : maxWidth < visibleWidth M seg.segment) (hrewrap : rewrap seg.segment = none) :
    wrapSegments M rewrap line maxWidth st segs = none := by
  induction segs generalizing st with
  | nil => cases hmem
  | cons first segs ih =>
    rw [wrapSegments]
    rcases mem_cons.mp hmem with rfl | hmem
    · have hstep : wrapSegment M rewrap line maxWidth st seg segs.head? = none := by
        unfold wrapSegment
        dsimp only
        rw [if_pos hwide, hrewrap, Option.map_none]
      rw [hstep, Option.bind_none]
    · cases wrapSegment M rewrap line maxWidth st first segs.head? with
      | none => rfl
      | some st' => exact ih hmem

theorem wordWrapWith_none {segments : List Seg} {seg : Seg} (hmem : seg ∈ segments) (hmax : 0 < maxWidth)
    (hline : maxWidth < visibleWidth M line) (hwide : maxWidth < visibleWidth M seg.segment)
    (hrewrap : rewrap seg.segment = none) : wordWrapWith M rewrap line maxWidth segments = none := by
  have hne : line ≠ [] := by
    rintro rfl
    exact absurd hline (Nat.not_lt_zero _)
  rw [wordWrapWith, if_neg (by simp [hne, Nat.ne_of_gt hmax]), if_neg (Nat.not_le.mpr hline),
    wrapSegments_none hmem hwide hrewrap, Option.map_none]

theorem mem_indexedFrom {gs : List JsString} (h : g ∈ gs) (i : Nat) :
    ∃ seg ∈ indexedFrom i gs, seg.segment = g := by
  induction gs generalizing i with
  | nil => cases h
  | cons first gs ih =>
    rcases mem_cons.mp h with rfl | h
    · exact ⟨⟨g, i⟩, mem_cons_self, rfl⟩
    · obtain ⟨seg, hseg, rfl⟩ := ih h (i + first.length)
      exact ⟨seg, mem_cons_of_mem _ hseg, rfl⟩

/-- **A grapheme that does not fit** is wrapped again and again. -/
theorem wordWrapGraphemes_none (hmax : 0 < maxWidth) (hseg : M.segment g = [g])
    (hwide : maxWidth < visibleWidth M g) (depth : Nat) : wordWrapGraphemes M depth g maxWidth = none := by
  induction depth with
  | zero => rfl
  | succ depth ih =>
    have hmem : (⟨g, 0⟩ : Seg) ∈ baseSegments M g := by
      rw [baseSegments, hseg]
      exact mem_cons_self
    exact wordWrapWith_none hmem hmax hwide hwide ih

theorem wordWrapGraphemes_none_of_mem (hG : Graphemic M line) (hmax : 0 < maxWidth)
    (hline : maxWidth < visibleWidth M line) (hg : g ∈ M.segment line)
    (hwide : maxWidth < visibleWidth M g) (depth : Nat) : wordWrapGraphemes M depth line maxWidth = none := by
  have hseg : M.segment g = [g] := by
    obtain ⟨front, back, heq⟩ := append_of_mem hg
    have hone := hG.divides [g] ⟨front, back, by rw [heq]; simp⟩
    rwa [flatten_singleton] at hone
  cases depth with
  | zero => rfl
  | succ depth =>
    obtain ⟨seg, hmem, rfl⟩ := mem_indexedFrom hg 0
    exact wordWrapWith_none hmem hmax hline hwide (wordWrapGraphemes_none hmax hseg hwide depth)

/-- **Word wrap** returns, with chunks as they should be, exactly when there is a line and it fits or each of its
graphemes does. -/
theorem wordWrapLine_iff {line : JsString} {maxWidth : Nat} {segs : List Seg} (hG : Graphemic M line)
    (hsegs : Segmentation M line segs) (hmax : 0 < maxWidth) :
    (∃ chunks, wordWrapLine M line maxWidth segs = some chunks ∧ Wrapped M line maxWidth chunks) ↔
      line ≠ [] ∧ (visibleWidth M line ≤ maxWidth ∨ ∀ g ∈ M.segment line, visibleWidth M g ≤ maxWidth) := by
  obtain ⟨parts, hparts, rfl, hpart⟩ := hsegs
  have hwithin : ∀ part ∈ parts, part <:+: M.segment line := by
    intro part hp
    obtain ⟨front, back, heq⟩ := append_of_mem hp
    exact ⟨front.flatten, back.flatten, by rw [← hparts, heq]; simp⟩
  unfold wordWrapLine
  constructor
  · rintro ⟨chunks, hwrap, hwrapped⟩
    have hne : line ≠ [] := by
      rintro rfl
      rw [wordWrapWith, if_pos (.inl rfl)] at hwrap
      cases hwrap
      exact hwrapped.ne_nil _ mem_cons_self rfl
    refine ⟨hne, ?_⟩
    by_contra hnot
    obtain ⟨hline, hg⟩ := not_or.mp hnot
    have hline := Nat.not_le.mp hline
    obtain ⟨g, hg, hwide⟩ : ∃ g ∈ M.segment line, maxWidth < visibleWidth M g := by simpa using hg
    rw [← hparts] at hg
    obtain ⟨part, hp, hgp⟩ := mem_flatten.mp hg
    obtain ⟨seg, hmem, hseg⟩ := mem_indexedFrom (mem_map_of_mem hp) 0
    have hpartWide : maxWidth < visibleWidth M part.flatten := by
      rw [(hpart part hp).width]
      exact hwide.trans_le (le_rowWidth hgp)
    have hdivides := hG.divides part (hwithin part hp)
    have hnone := wordWrapGraphemes_none_of_mem (hG.of_infix (hwithin part hp)) hmax hpartWide
      (hdivides.symm ▸ hgp) hwide part.flatten.length
    rw [wordWrapWith_none hmem hmax hline (by rwa [hseg]) (by rwa [hseg])] at hwrap
    cases hwrap
  · rintro ⟨hne, hfits⟩
    by_cases hline : visibleWidth M line ≤ maxWidth
    · refine ⟨[⟨line, 0, line.length⟩], ?_, ⟨rfl, (Nat.zero_add _).symm, rfl⟩, ?_, ?_, ?_⟩
      · rw [wordWrapWith, if_neg (by simp [hne, Nat.ne_of_gt hmax]), if_pos hline]
      · simp
      · rintro chunk hchunk
        rw [mem_singleton.mp hchunk]
        exact hne
      · rintro chunk hchunk
        rw [mem_singleton.mp hchunk]
        exact .inl hline
    · have hfit := hfits.resolve_left hline
      obtain ⟨rows, hrows, hrowFits, hwrap⟩ := wordWrapWith_rows hparts
        (fun part hp => wrappable_part hG hmax (hpart part hp) (hwithin part hp) fun g hg =>
          hfit g (hparts ▸ mem_flatten.mpr ⟨part, hp, hg⟩)) hmax (Nat.not_le.mp hline)
      exact ⟨chunksAt 0 rows, hwrap, wrapped_of_rows hG hrows hrowFits⟩

/-! ### Lines of single units -/

theorem visibleWidth_wideMetrics (h : ∀ c ∈ s, c ≠ esc) :
    visibleWidth wideMetrics s = ((expandTabs s).map unitWidth).sum := by
  have hclosed : Closed (s.map .unit) := by
    intro x hx
    obtain ⟨c, hc, rfl⟩ := mem_map.mp hx
    exact h c hc
  have hwidth := visibleWidth_closed wideMetrics hclosed
  rw [render_units, units_map_unit] at hwidth
  rw [hwidth]
  simp [Metrics.clusterWidth, wideMetrics, Function.comp_def]

theorem graphemic_wideMetrics {text : JsString} (h : ∀ c ∈ text, c ≠ esc) : Graphemic wideMetrics text := by
  have hpieces : ∀ gs, gs <:+: wideMetrics.segment text →
      ∃ s : JsString, (∀ c ∈ s, c ≠ esc) ∧ gs = s.map fun c => [c] := by
    rintro gs ⟨front, back, heq⟩
    obtain ⟨ab, b, htext, hab, -⟩ := map_eq_append_iff.mp heq.symm
    obtain ⟨a, s, hsplit, -, hs⟩ := map_eq_append_iff.mp hab
    refine ⟨s, fun c hc => h c ?_, hs.symm⟩
    rw [htext, hsplit]
    simp [hc]
  constructor
  · intro gs hgs
    obtain ⟨s, -, rfl⟩ := hpieces gs hgs
    exact congrArg wideMetrics.segment (wideMetrics.segment_flatten s)
  · intro gs hgs
    obtain ⟨s, hs, rfl⟩ := hpieces gs hgs
    have hflat : (s.map fun c => [c]).flatten = s := wideMetrics.segment_flatten s
    rw [hflat]
    clear hgs hflat
    induction s with
    | nil => exact Nat.zero_le _
    | cons c s ih =>
      have hrest := ih fun d hd => hs d (mem_cons_of_mem _ hd)
      have hone : visibleWidth wideMetrics [c] = ((expandTabs [c]).map unitWidth).sum :=
        visibleWidth_wideMetrics fun d hd => hs d (mem_cons.mpr (.inl (mem_singleton.mp hd)))
      rw [visibleWidth_wideMetrics fun d hd => hs d (mem_cons_of_mem _ hd)] at hrest
      rw [map_cons, rowWidth_cons, hone, visibleWidth_wideMetrics hs, ← singleton_append, expandTabs_append,
        map_append, sum_append]
      exact Nat.add_le_add_left hrest _

/-- A wide character, a space and a marker, on four columns: the marker goes over several rows. -/
theorem wordWrapLine_marker : ∃ chunks, wordWrapLine wideMetrics ([0x4f60, 0x20] ++ ofAscii "[image #1]") 4
        [⟨[0x4f60], 0⟩, ⟨[0x20], 1⟩, ⟨ofAscii "[image #1]", 2⟩] = some chunks ∧
      Wrapped wideMetrics ([0x4f60, 0x20] ++ ofAscii "[image #1]") 4 chunks := by
  have hsegs : Segmentation wideMetrics ([0x4f60, 0x20] ++ ofAscii "[image #1]")
      [⟨[0x4f60], 0⟩, ⟨[0x20], 1⟩, ⟨ofAscii "[image #1]", 2⟩] := by
    refine ⟨[[[0x4f60]], [[0x20]], (ofAscii "[image #1]").map fun c => [c]], rfl, rfl, fun part hpart => ?_⟩
    simp only [mem_cons, not_mem_nil, or_false] at hpart
    rcases hpart with rfl | rfl | rfl
    · exact .inl ⟨_, rfl⟩
    · exact .inl ⟨_, rfl⟩
    · exact .inr ⟨by decide, by decide⟩
  exact (wordWrapLine_iff (graphemic_wideMetrics (by decide)) hsegs (by decide)).mpr ⟨by decide, .inr (by decide)⟩

/-- A wide character on one column: the call does not return. -/
theorem wordWrapLine_wide :
    Graphemic wideMetrics [0x4f60, 0x61] ∧
      Segmentation wideMetrics [0x4f60, 0x61] (baseSegments wideMetrics [0x4f60, 0x61]) ∧
      ¬ ∃ chunks, wordWrapLine wideMetrics [0x4f60, 0x61] 1 (baseSegments wideMetrics [0x4f60, 0x61]) = some chunks ∧
        Wrapped wideMetrics [0x4f60, 0x61] 1 chunks := by
  refine ⟨graphemic_wideMetrics (by decide), segmentation_base _, ?_⟩
  rintro ⟨chunks, hwrap, -⟩
  have hnone : wordWrapLine wideMetrics [0x4f60, 0x61] 1 (baseSegments wideMetrics [0x4f60, 0x61]) = none := by decide
  cases hnone.symm.trans hwrap

end Tui
end RePrime
