import Mathlib.Data.List.Sort
import RePrime.Lib.JsScan
import RePrime.Lib.OrderedMap
import RePrime.Tui.Wrap

/-!
# RePrime.Tui.Markers

The markers that stand for a paste or an image in the text of the editor (`editor.ts`), and the segmentation that
takes each of them as one unit.

* `pasteMarker`, `imageMarker`: the patterns `PASTE_MARKER_REGEX` and `IMAGE_MARKER_REGEX` at the start of a text.
  `pasteMarker_eq_some`, `imageMarker_eq_some` say which texts they match.
* `segmentWithMarkers`: graphemes, with those of a marker merged.
-/

namespace RePrime
namespace Tui

open JsText List Option

/-! ### Patterns -/

/-- `( (\+\d+ lines|\d+ chars))` -/
def eatSize (s : JsString) : Option JsString :=
  (eat (ofAscii " ") s).bind fun s =>
    ((eat (ofAscii "+") s).bind fun s => (eatDigits s).bind fun d => eat (ofAscii " lines") d.2).or
      ((eatDigits s).bind fun d => eat (ofAscii " chars") d.2)

/-- `( (\+\d+ lines|\d+ chars))?\]` -/
def eatMarkerEnd (s : JsString) : Option JsString := ((eatSize s).bind (eat (ofAscii "]"))).or (eat (ofAscii "]") s)

def pasteOpen : JsString := ofAscii "[paste #"
def imageOpen : JsString := ofAscii "[image #"

/-- `PASTE_MARKER_REGEX`: the digits of the id, and what follows the marker. -/
def pasteMarker (s : JsString) : Option (JsString × JsString) :=
  (eat pasteOpen s).bind fun s => (eatDigits s).bind fun d => (eatMarkerEnd d.2).map fun rest => (d.1, rest)

/-- The pattern of `expandPasteMarkers` for one id. -/
def pasteMarkerOf (pasteId : Nat) (s : JsString) : Option JsString :=
  (eat (pasteOpen ++ decimal pasteId) s).bind eatMarkerEnd

/-- `IMAGE_MARKER_REGEX`: what follows the marker. -/
def imageMarker (s : JsString) : Option JsString :=
  (eat imageOpen s).bind fun s => (eatDigits s).bind fun d => eat (ofAscii "]") d.2

/-! ### Texts that match -/

/-- The size that a marker may name. -/
def Size (size : JsString) : Prop :=
  size = [] ∨ ∃ d, Digits d ∧
    (size = ofAscii " +" ++ d ++ ofAscii " lines" ∨ size = ofAscii " " ++ d ++ ofAscii " chars")

variable {s rest : JsString}

theorem not_digit_of_eat {literal : JsString} (h : eat literal s = some rest)
    (hl : ∃ u l, literal = u :: l ∧ isDigit u = false) : ∀ u ∈ s.head?, isDigit u = false := by
  obtain ⟨u, l, rfl, hu⟩ := hl
  rw [eat_eq_some] at h
  subst h
  intro v hv
  rw [cons_append, head?_cons, mem_def, Option.some.injEq] at hv
  exact hv ▸ hu

theorem eatDigits_eat {literal : JsString} (hl : ∃ u l, literal = u :: l ∧ isDigit u = false) :
    ((eatDigits s).bind fun d => eat literal d.2) = some rest ↔ ∃ d, Digits d ∧ s = d ++ literal ++ rest := by
  constructor
  · intro h
    obtain ⟨⟨d, t⟩, hd, ht⟩ := bind_eq_some_iff.mp h
    obtain ⟨rfl, hdigits, -⟩ := eatDigits_eq_some hd
    rw [eat_eq_some] at ht
    exact ⟨d, hdigits, by rw [show t = literal ++ rest from ht, append_assoc]⟩
  · rintro ⟨d, hdigits, rfl⟩
    have hrest : eat literal (literal ++ rest) = some rest := eat_append literal rest
    rw [append_assoc, eatDigits_append hdigits (not_digit_of_eat hrest hl)]
    exact hrest

theorem eatSize_eq_some : eatSize s = some rest ↔ ∃ d, Digits d ∧
      (s = ofAscii " +" ++ d ++ ofAscii " lines" ++ rest ∨ s = ofAscii " " ++ d ++ ofAscii " chars" ++ rest) := by
  have hlines : ∀ t, ((eatDigits t).bind fun d => eat (ofAscii " lines") d.2) = some rest ↔
      ∃ d, Digits d ∧ t = d ++ ofAscii " lines" ++ rest := fun t => eatDigits_eat ⟨_, _, rfl, rfl⟩
  have hchars : ∀ t, ((eatDigits t).bind fun d => eat (ofAscii " chars") d.2) = some rest ↔
      ∃ d, Digits d ∧ t = d ++ ofAscii " chars" ++ rest := fun t => eatDigits_eat ⟨_, _, rfl, rfl⟩
  unfold eatSize
  constructor
  · intro h
    obtain ⟨t, ht, h⟩ := bind_eq_some_iff.mp h
    rw [eat_eq_some] at ht
    rcases or_eq_some_iff.mp h with h | ⟨-, h⟩
    · obtain ⟨t', ht', h⟩ := bind_eq_some_iff.mp h
      rw [eat_eq_some] at ht'
      obtain ⟨d, hd, rfl⟩ := (hlines t').mp h
      exact ⟨d, hd, .inl (by rw [ht, ht']; rfl)⟩
    · obtain ⟨d, hd, rfl⟩ := (hchars t).mp h
      exact ⟨d, hd, .inr (by rw [ht]; simp only [append_assoc])⟩
  · rintro ⟨d, hd, rfl | rfl⟩
    · refine bind_eq_some_iff.mpr ⟨ofAscii "+" ++ (d ++ ofAscii " lines" ++ rest), ?_, ?_⟩
      · rw [eat_eq_some, show ofAscii " +" = ofAscii " " ++ ofAscii "+" from rfl]
        simp only [append_assoc]
      · rw [eat_append, bind_some, (hlines _).mpr ⟨d, hd, rfl⟩, some_or]
    · refine bind_eq_some_iff.mpr ⟨d ++ ofAscii " chars" ++ rest, ?_, ?_⟩
      · rw [eat_eq_some]
        simp only [append_assoc]
      · have hplus : eat (ofAscii "+") (d ++ ofAscii " chars" ++ rest) = none := by
          obtain ⟨u, d, rfl⟩ := exists_cons_of_ne_nil hd.1
          refine if_neg fun hpre => ?_
          have hu : 43 = u := (cons_prefix_cons.mp hpre).1
          have hdigit := hd.2 u (by simp)
          rw [← hu] at hdigit
          exact absurd hdigit (by decide)
        rw [hplus, bind_none, none_or, (hchars _).mpr ⟨d, hd, rfl⟩]

theorem eatMarkerEnd_eq_some :
    eatMarkerEnd s = some rest ↔ ∃ size, Size size ∧ s = size ++ ofAscii "]" ++ rest := by
  unfold eatMarkerEnd
  constructor
  · intro h
    rcases or_eq_some_iff.mp h with h | ⟨-, h⟩
    · obtain ⟨t, ht, hclose⟩ := bind_eq_some_iff.mp h
      rw [eat_eq_some] at hclose
      obtain ⟨d, hd, hs⟩ := eatSize_eq_some.1 ht
      rcases hs with rfl | rfl
      · exact ⟨_, .inr ⟨d, hd, .inl rfl⟩, by rw [hclose]; simp only [append_assoc]⟩
      · exact ⟨_, .inr ⟨d, hd, .inr rfl⟩, by rw [hclose]; simp only [append_assoc]⟩
    · exact ⟨[], .inl rfl, eat_eq_some.mp h⟩
  · rintro ⟨size, hsize, rfl⟩
    rcases hsize with rfl | ⟨d, hd, hsize⟩
    · have hnone : eatSize ([] ++ ofAscii "]" ++ rest) = none := by
        refine eq_none_iff_forall_ne_some.mpr fun t ht => ?_
        obtain ⟨d, -, hs | hs⟩ := eatSize_eq_some.1 ht
        · exact absurd (List.cons.inj hs).1 (by decide)
        · exact absurd (List.cons.inj hs).1 (by decide)
      rw [hnone, bind_none, none_or]
      exact eat_append _ _
    · have hsome : eatSize (size ++ ofAscii "]" ++ rest) = some (ofAscii "]" ++ rest) := by
        refine eatSize_eq_some.2 ⟨d, hd, ?_⟩
        rcases hsize with rfl | rfl
        · exact .inl (append_assoc _ _ _)
        · exact .inr (append_assoc _ _ _)
      rw [hsome, bind_some, eat_append, some_or]

theorem not_digit_of_markerEnd (h : eatMarkerEnd s = some rest) : ∀ u ∈ s.head?, isDigit u = false := by
  obtain ⟨size, hsize, rfl⟩ := eatMarkerEnd_eq_some.1 h
  rcases hsize with rfl | ⟨d, -, rfl | rfl⟩
  · exact not_digit_of_eat (eat_append (ofAscii "]") rest) ⟨_, _, rfl, rfl⟩
  · rw [append_assoc, append_assoc, append_assoc]
    exact not_digit_of_eat (eat_append (ofAscii " +") _) ⟨_, _, rfl, rfl⟩
  · rw [append_assoc, append_assoc, append_assoc]
    exact not_digit_of_eat (eat_append (ofAscii " ") _) ⟨_, _, rfl, rfl⟩

theorem pasteMarker_eq_some {digits : JsString} : pasteMarker s = some (digits, rest) ↔
      Digits digits ∧ ∃ size, Size size ∧ s = pasteOpen ++ (digits ++ (size ++ ofAscii "]" ++ rest)) := by
  unfold pasteMarker
  constructor
  · intro h
    obtain ⟨t, ht, h⟩ := bind_eq_some_iff.mp h
    obtain ⟨⟨d, t'⟩, hd, h⟩ := bind_eq_some_iff.mp h
    obtain ⟨r, hr, h⟩ := map_eq_some_iff.mp h
    cases h
    obtain ⟨rfl, hdigits, -⟩ := eatDigits_eq_some hd
    obtain ⟨size, hsize, rfl⟩ := eatMarkerEnd_eq_some.1 hr
    exact ⟨hdigits, size, hsize, eat_eq_some.mp ht⟩
  · rintro ⟨hdigits, size, hsize, rfl⟩
    have hend : eatMarkerEnd (size ++ ofAscii "]" ++ rest) = some rest :=
      eatMarkerEnd_eq_some.2 ⟨size, hsize, rfl⟩
    rw [eat_append, bind_some, eatDigits_append hdigits (not_digit_of_markerEnd hend), bind_some, hend]
    rfl

theorem imageMarker_eq_some :
    imageMarker s = some rest ↔ ∃ digits, Digits digits ∧ s = imageOpen ++ (digits ++ ofAscii "]" ++ rest) := by
  unfold imageMarker
  constructor
  · intro h
    obtain ⟨t, ht, h⟩ := bind_eq_some_iff.mp h
    obtain ⟨d, hd, rfl⟩ := (eatDigits_eat ⟨_, _, rfl, rfl⟩).mp h
    exact ⟨d, hd, eat_eq_some.mp ht⟩
  · rintro ⟨d, hd, rfl⟩
    rw [eat_append, bind_some]
    exact (eatDigits_eat ⟨_, _, rfl, rfl⟩).mpr ⟨d, hd, rfl⟩

theorem pasteMarkerOf_eq_some {pasteId : Nat} :
    pasteMarkerOf pasteId s = some rest ↔ pasteMarker s = some (decimal pasteId, rest) := by
  rw [pasteMarker_eq_some]
  unfold pasteMarkerOf
  constructor
  · intro h
    obtain ⟨t, ht, h⟩ := bind_eq_some_iff.mp h
    obtain ⟨size, hsize, rfl⟩ := eatMarkerEnd_eq_some.1 h
    exact ⟨digits_decimal pasteId, size, hsize, by rw [eat_eq_some.mp ht, append_assoc]⟩
  · rintro ⟨-, size, hsize, rfl⟩
    rw [← append_assoc, eat_append, bind_some]
    exact eatMarkerEnd_eq_some.2 ⟨size, hsize, rfl⟩

/-- `isAtomicMarker` -/
def isAtomicMarker (segment : JsString) : Bool :=
  10 ≤ segment.length && ((pasteMarker segment).any (·.2 == []) || imageMarker segment == some [])

/-! ### Segments -/

/-- `Intl.SegmentData` -/
structure Seg where
  segment : JsString
  index : Nat
deriving DecidableEq

def Seg.stop (seg : Seg) : Nat := seg.index + seg.segment.length

def indexedFrom : Nat → List JsString → List Seg
  | _, [] => []
  | i, g :: gs => ⟨g, i⟩ :: indexedFrom (i + g.length) gs

/-- `baseSegmenter.segment(text)` -/
def baseSegments (M : Metrics) (text : JsString) : List Seg := indexedFrom 0 (M.segment text)

/-- A marker in a text: where it starts and ends. -/
structure Marker where
  start : Nat
  stop : Nat
deriving DecidableEq

def pasteMatches (text : JsString) : List (Match JsString) :=
  matchAll (fun s => (pasteMarker s).map fun p => (s.length - p.2.length, p.1)) text

def imageMatches (text : JsString) : List (Match Unit) :=
  matchAll (fun s => (imageMarker s).map fun rest => (s.length - rest.length, ())) text

/-- The paste markers whose id is valid, and the image markers, by where they start. -/
def markersIn (validPasteIds : List Nat) (text : JsString) : List Marker :=
  let hasPaste : Bool := !validPasteIds.isEmpty && decide (pasteOpen <:+: text)
  let hasImage : Bool := decide (imageOpen <:+: text)
  let paste := if hasPaste then
      (pasteMatches text).filter fun m => (parseInt m.groups).any (validPasteIds.contains ·)
    else []
  let image := if hasImage then imageMatches text else []
  (paste.map (fun m => Marker.mk m.start m.stop) ++ image.map (fun m => Marker.mk m.start m.stop)).insertionSort
    fun a b => a.start ≤ b.start

/-- The loop of `segmentWithMarkers`. A marker takes the place of the graphemes that start in it. -/
def mergeSegments (text : JsString) : List Marker → List Seg → List Seg
  | _, [] => []
  | markers, seg :: segs =>
    let markers := markers.dropWhile fun m => m.stop ≤ seg.index
    match markers.head? with
    | some marker =>
      if marker.start ≤ seg.index ∧ seg.index < marker.stop then
        if seg.index = marker.start then
          ⟨(text.drop marker.start).take (marker.stop - marker.start), marker.start⟩ :: mergeSegments text markers segs
        else mergeSegments text markers segs
      else seg :: mergeSegments text markers segs
    | none => seg :: mergeSegments text markers segs

def segmentWithMarkers (M : Metrics) (text : JsString) (validPasteIds : List Nat) : List Seg :=
  mergeSegments text (markersIn validPasteIds text) (baseSegments M text)

theorem mergeSegments_pos (text : JsString) (gs : List JsString) (hne : ∀ g ∈ gs, g ≠ []) (i : Nat)
    (hlen : i + gs.flatten.length = text.length) (markers : List Marker) :
    ∀ seg ∈ mergeSegments text markers (indexedFrom i gs), 0 < seg.segment.length := by
  induction gs generalizing i markers with
  | nil => exact fun seg hseg => by cases hseg
  | cons g gs ih =>
    have hg : 0 < g.length := length_pos_of_ne_nil (hne g mem_cons_self)
    rw [flatten_cons, length_append, ← Nat.add_assoc] at hlen
    have hrest := ih (fun g' hg' => hne g' (mem_cons_of_mem _ hg')) (i + g.length) hlen
    have hkept : ∀ rest, ∀ seg ∈ (⟨g, i⟩ : Seg) :: mergeSegments text rest (indexedFrom (i + g.length) gs),
        0 < seg.segment.length := fun rest => forall_mem_cons.mpr ⟨hg, hrest rest⟩
    rw [indexedFrom, mergeSegments]
    dsimp only
    split
    · split
      · rename_i hin
        split
        · refine forall_mem_cons.mpr ⟨?_, hrest _⟩
          rw [length_take, length_drop]
          omega
        · exact hrest _
      · exact hkept _
    · exact hkept _

theorem mergeSegments_ne_nil (text g : JsString) (gs : List JsString) (markers : List Marker) :
    mergeSegments text markers (indexedFrom 0 (g :: gs)) ≠ [] := by
  rw [indexedFrom, mergeSegments]
  dsimp only
  split
  · split
    · rw [if_pos (by omega)]
      exact cons_ne_nil _ _
    · exact cons_ne_nil _ _
  · exact cons_ne_nil _ _

theorem segmentWithMarkers_pos (M : Metrics) (text : JsString) (validPasteIds : List Nat) :
    ∀ seg ∈ segmentWithMarkers M text validPasteIds, 0 < seg.segment.length := by
  refine mergeSegments_pos text (M.segment text) (M.segment_ne_nil text) 0 ?_ _
  rw [M.segment_flatten, Nat.zero_add]

theorem segmentWithMarkers_ne_nil (M : Metrics) {text : JsString} (h : text ≠ []) (validPasteIds : List Nat) :
    segmentWithMarkers M text validPasteIds ≠ [] := by
  rw [segmentWithMarkers, baseSegments]
  cases hsegs : M.segment text with
  | nil =>
    have hflat := M.segment_flatten text
    rw [hsegs] at hflat
    exact absurd hflat.symm h
  | cons g gs => exact mergeSegments_ne_nil text g gs _

/-! ### Expansion -/

/-- `result.replace(markerRegex, () => pasteContent)` -/
def expandPaste (pasteId : Nat) (pasteContent result : JsString) : JsString :=
  replaceAll (fun s => (pasteMarkerOf pasteId s).map fun rest => (s.length - rest.length, pasteContent)) result

/-- One paste after another, in the order of the table. -/
def expandPasteMarkers (pastes : OrderedMap Nat JsString) (text : JsString) : JsString :=
  pastes.entries.foldl (fun result paste => expandPaste paste.1 paste.2 result) text

end Tui
end RePrime
