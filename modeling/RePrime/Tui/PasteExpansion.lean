import RePrime.Lib.History
import RePrime.Lib.Runs
import RePrime.Tui.EditorInput

/-!
# RePrime.Tui.PasteExpansion

What `expandPasteMarkers` (`editor.ts`) makes of a text, against the substitution of all stored pastes at once.

The code replaces the markers of one paste after another, in the text that the pastes before have already gone into.
So it also finds a marker that a content holds, or that a content and what is beside it make up.

* `substitute`: every marker of a stored paste replaced, in one pass over the text.
* `fill_step`: one more paste, when the text so far has as many markers of it as the editor text.
* `foreign_fill`: what is added, counted in units that no marker has.
-/

namespace RePrime
namespace Tui

open JsText List Option

/-! ### Markers in a text -/

/-- The text of a marker whose id has these digits. -/
def MarkerText (digits raw : JsString) : Prop :=
  Digits digits ∧ ∃ size, Size size ∧ raw = pasteOpen ++ (digits ++ (size ++ ofAscii "]"))

variable {rest : JsString}

theorem pasteMarker_iff {s digits : JsString} :
    pasteMarker s = some (digits, rest) ↔ ∃ raw, MarkerText digits raw ∧ s = raw ++ rest := by
  rw [pasteMarker_eq_some]
  constructor
  · rintro ⟨hd, size, hsize, rfl⟩
    exact ⟨_, ⟨hd, size, hsize, rfl⟩, by simp only [append_assoc]⟩
  · rintro ⟨raw, ⟨hd, size, hsize, rfl⟩, rfl⟩
    exact ⟨hd, size, hsize, by simp only [append_assoc]⟩

/-- The units that markers are made of. -/
def isMarkerUnit (u : UInt16) : Bool := isDigit u || (ofAscii "[paste #+line chars]").contains u

theorem isMarkerUnit_size {size : JsString} (h : Size size) : ∀ u ∈ size, isMarkerUnit u = true ∧ u ≠ 0x5b := by
  intro u hu
  have hdigit : ∀ {d : JsString}, Digits d → u ∈ d → isMarkerUnit u = true ∧ u ≠ 0x5b := by
    intro d hd hu
    have := hd.2 u hu
    exact ⟨by simp [isMarkerUnit, this], by rintro rfl; exact absurd this (by decide)⟩
  have hword : ∀ w : JsString, (∀ v ∈ w, isMarkerUnit v = true ∧ v ≠ 0x5b) → u ∈ w →
      isMarkerUnit u = true ∧ u ≠ 0x5b := fun w hw hu => hw u hu
  rcases h with rfl | ⟨d, hd, rfl | rfl⟩
  · cases hu
  · rcases mem_append.mp hu with hu | hu
    · rcases mem_append.mp hu with hu | hu
      · exact hword _ (by decide) hu
      · exact hdigit hd hu
    · exact hword _ (by decide) hu
  · rcases mem_append.mp hu with hu | hu
    · rcases mem_append.mp hu with hu | hu
      · exact hword _ (by decide) hu
      · exact hdigit hd hu
    · exact hword _ (by decide) hu

namespace MarkerText

variable {digits raw : JsString}

theorem eq_cons (h : MarkerText digits raw) :
    ∃ body, raw = 0x5b :: body ∧ ∀ u ∈ body, isMarkerUnit u = true ∧ u ≠ 0x5b := by
  obtain ⟨hd, size, hsize, rfl⟩ := h
  refine ⟨pasteOpen.tail ++ (digits ++ (size ++ ofAscii "]")), rfl, fun u hu => ?_⟩
  rcases mem_append.mp hu with hu | hu
  · exact (show ∀ v ∈ pasteOpen.tail, isMarkerUnit v = true ∧ v ≠ 0x5b by decide) u hu
  rcases mem_append.mp hu with hu | hu
  · have hdigit := hd.2 u hu
    exact ⟨by simp [isMarkerUnit, hdigit], by rintro rfl; exact absurd hdigit (by decide)⟩
  rcases mem_append.mp hu with hu | hu
  · exact isMarkerUnit_size hsize u hu
  · exact (show ∀ v ∈ ofAscii "]", isMarkerUnit v = true ∧ v ≠ 0x5b by decide) u hu

theorem ne_nil (h : MarkerText digits raw) : raw ≠ [] := by
  obtain ⟨body, rfl, -⟩ := h.eq_cons
  exact cons_ne_nil _ _

theorem isMarkerUnit (h : MarkerText digits raw) : ∀ u ∈ raw, isMarkerUnit u = true := by
  obtain ⟨body, rfl, hbody⟩ := h.eq_cons
  intro u hu
  rcases mem_cons.mp hu with rfl | hu
  · decide
  · exact (hbody u hu).1

end MarkerText

variable {u : UInt16} {p : JsString × JsString}

theorem head_of_pasteMarker {s : JsString} (h : pasteMarker (u :: s) = some p) : u = 0x5b := by
  obtain ⟨raw, hraw, hs⟩ := pasteMarker_iff.mp (show pasteMarker (u :: s) = some (p.1, p.2) from h)
  obtain ⟨body, rfl, -⟩ := hraw.eq_cons
  exact (List.cons.inj hs).1

/-- A text is empty, or starts with a marker, or with a unit where no marker starts. -/
@[elab_as_elim]
theorem marker_induction {P : JsString → Prop} (nil : P [])
    (marker : ∀ digits raw rest, MarkerText digits raw → P rest → P (raw ++ rest))
    (unit : ∀ u rest, pasteMarker (u :: rest) = none → P rest → P (u :: rest)) (text : JsString) : P text := by
  induction hn : text.length using Nat.strong_induction_on generalizing text with
  | _ n ih =>
    cases text with
    | nil => exact nil
    | cons u rest =>
      cases hp : pasteMarker (u :: rest) with
      | none => exact unit u rest hp (ih rest.length (by rw [← hn]; simp) rest rfl)
      | some p =>
        obtain ⟨digits, rest'⟩ := p
        obtain ⟨raw, hraw, hs⟩ := pasteMarker_iff.mp hp
        rw [hs]
        refine marker digits raw rest' hraw (ih rest'.length ?_ rest' rfl)
        have hpos := length_pos_iff.mpr hraw.ne_nil
        rw [← hn, hs, length_append]
        omega

/-! ### Replacing markers -/

/-- Each marker whose digits have a content replaced by it. -/
def fill (content : JsString → Option JsString) (text : JsString) : JsString :=
  replaceAll (fun s => (pasteMarker s).bind fun p => (content p.1).map fun c => (s.length - p.2.length, c)) text

variable {content : JsString → Option JsString} {digits raw c : JsString}

@[simp] theorem fill_nil : fill content [] = [] := rfl

theorem fill_marker (h : MarkerText digits raw) (hc : content digits = some c) (rest : JsString) :
    fill content (raw ++ rest) = c ++ fill content rest := by
  refine replaceAll_match ?_ h.ne_nil
  rw [pasteMarker_iff.mpr ⟨raw, h, rfl⟩, bind_some, hc, map_some, length_append]
  simp

theorem fill_append {part : JsString}
    (h : ∀ a b, part = a ++ b → b ≠ [] → ∀ p, pasteMarker (b ++ rest) = some p → content p.1 = none) :
    fill content (part ++ rest) = part ++ fill content rest := by
  refine replaceAll_append fun a b hab hb => ?_
  cases hp : pasteMarker (b ++ rest) with
  | none => rfl
  | some p => rw [bind_some, h a b hab hb p hp, map_none]

theorem fill_unit (h : pasteMarker (u :: rest) = none) : fill content (u :: rest) = u :: fill content rest :=
  replaceAll_unit (by rw [h, bind_none])

theorem pasteMarker_inside (h : MarkerText digits raw) {a b : JsString}
    (hab : raw = a ++ b) (hb : b ≠ []) (hp : pasteMarker (b ++ rest) = some p) : a = [] ∧ p = (digits, rest) := by
  obtain ⟨body, hbody, hinside⟩ := h.eq_cons
  cases a with
  | nil =>
    rw [nil_append] at hab
    rw [← hab, pasteMarker_iff.mpr ⟨raw, h, rfl⟩] at hp
    exact ⟨rfl, (Option.some.inj hp).symm⟩
  | cons v a =>
    obtain ⟨u, b, rfl⟩ := exists_cons_of_ne_nil hb
    have hu : u = 0x5b := head_of_pasteMarker hp
    rw [hbody] at hab
    have hmem : u ∈ body := by simp [(List.cons.inj hab).2]
    exact absurd hu (hinside u hmem).2

theorem fill_marker_none (h : MarkerText digits raw) (hc : content digits = none) (rest : JsString) :
    fill content (raw ++ rest) = raw ++ fill content rest := by
  refine fill_append fun a b hab hb p hp => ?_
  rw [(pasteMarker_inside h hab hb hp).2]
  exact hc

theorem fill_none (text : JsString) : fill (fun _ => none) text = text := by
  have h : fill (fun _ => none) (text ++ []) = text ++ fill (fun _ => none) [] :=
    fill_append fun _ _ _ _ _ _ => rfl
  simpa using h

/-! ### Counting markers -/

/-- How many markers with these digits a text has. -/
def occurrences (digits : JsString) : JsString → Nat
  | [] => 0
  | u :: s => (if (pasteMarker (u :: s)).any (·.1 == digits) then 1 else 0) + occurrences digits s

variable {d : JsString}

theorem occurrences_le_append (part rest : JsString) : occurrences d rest ≤ occurrences d (part ++ rest) := by
  induction part with
  | nil => exact Nat.le_refl _
  | cons u part ih =>
    rw [cons_append, occurrences]
    omega

theorem no_marker_of_occurrences {part : JsString} (h : occurrences d (part ++ rest) = occurrences d rest)
    {a b : JsString} (hab : part = a ++ b) (hb : b ≠ []) (hp : pasteMarker (b ++ rest) = some p) : p.1 ≠ d := by
  rintro rfl
  obtain ⟨u, b, rfl⟩ := exists_cons_of_ne_nil hb
  have hstart : occurrences p.1 (u :: b ++ rest) = 1 + occurrences p.1 (b ++ rest) := by
    rw [cons_append, occurrences, ← cons_append, hp]
    simp
  have ha := occurrences_le_append (d := p.1) a (u :: b ++ rest)
  have hrest := occurrences_le_append (d := p.1) b rest
  rw [hab, append_assoc] at h
  omega

theorem occurrences_inside {body : JsString} (h : ∀ u ∈ body, u ≠ 0x5b) :
    occurrences d (body ++ rest) = occurrences d rest := by
  induction body with
  | nil => rfl
  | cons u body ih =>
    have hnone : pasteMarker (u :: (body ++ rest)) = none := by
      refine eq_none_iff_forall_ne_some.mpr fun p hp => ?_
      exact h u (by simp) (head_of_pasteMarker hp)
    rw [cons_append, occurrences, hnone, ih fun v hv => h v (by simp [hv])]
    simp

theorem occurrences_marker (h : MarkerText digits raw) (rest : JsString) :
    occurrences d (raw ++ rest) = (if digits = d then 1 else 0) + occurrences d rest := by
  have hp : pasteMarker (raw ++ rest) = some (digits, rest) := pasteMarker_iff.mpr ⟨raw, h, rfl⟩
  obtain ⟨body, rfl, hbody⟩ := h.eq_cons
  rw [cons_append] at hp ⊢
  rw [occurrences, hp, occurrences_inside fun u hu => (hbody u hu).2]
  simp

theorem occurrences_unit (h : pasteMarker (u :: rest) = none) : occurrences d (u :: rest) = occurrences d rest := by
  rw [occurrences, h]
  simp

/-! ### One more paste -/

/-- The contents with one more, for digits that have none. -/
def withContent (content : JsString → Option JsString) (digits c : JsString) : JsString → Option JsString :=
  Function.update content digits (some c)

theorem withContent_self : withContent content d c d = some c := Function.update_self _ _ _

theorem withContent_ne (h : digits ≠ d) : withContent content d c digits = content digits :=
  Function.update_of_ne h _ _

theorem occurrences_fill (hd : content d = none) (text : JsString) :
    occurrences d text ≤ occurrences d (fill content text) := by
  induction text using marker_induction with
  | nil => exact Nat.le_refl _
  | marker digits raw rest hm ih =>
    rw [occurrences_marker hm]
    cases hc : content digits with
    | some c' =>
      have hne : digits ≠ d := by
        rintro rfl
        rw [hd] at hc
        cases hc
      rw [fill_marker hm hc, if_neg hne, Nat.zero_add]
      exact ih.trans (occurrences_le_append c' _)
    | none =>
      rw [fill_marker_none hm hc, occurrences_marker hm]
      omega
  | unit u rest hu ih =>
    rw [occurrences_unit hu, fill_unit hu]
    exact ih.trans (occurrences_le_append [u] _)

/-- The markers of one more paste replaced in a text into which other pastes went: if there are no more of them than
in the editor text, this is the substitution of all of them. -/
theorem fill_step (hd : content d = none) {text : JsString}
    (h : occurrences d (fill content text) = occurrences d text) :
    fill (withContent (fun _ => none) d c) (fill content text) = fill (withContent content d c) text := by
  have hother : ∀ {digits : JsString}, digits ≠ d →
      withContent content d c digits = content digits ∧ withContent (fun _ => none) d c digits = none :=
    fun hne => ⟨withContent_ne hne, withContent_ne hne⟩
  have hkept : ∀ {part rest : JsString}, occurrences d (part ++ rest) = occurrences d rest →
      fill (withContent (fun _ => none) d c) (part ++ rest) =
        part ++ fill (withContent (fun _ => none) d c) rest :=
    fun hocc => fill_append fun a b hab hb p hp => (hother (no_marker_of_occurrences hocc hab hb hp)).2
  induction text using marker_induction with
  | nil => rfl
  | marker digits raw rest hm ih =>
    have hle := occurrences_fill hd rest
    rw [occurrences_marker hm] at h
    cases hc : content digits with
    | some c' =>
      have hne : digits ≠ d := by
        rintro rfl
        rw [hd] at hc
        cases hc
      rw [fill_marker hm hc, if_neg hne, Nat.zero_add] at h
      have happ : occurrences d (fill content rest) ≤ occurrences d (c' ++ fill content rest) :=
        occurrences_le_append c' _
      rw [fill_marker hm hc, hkept (by omega), ih (by omega), fill_marker hm ((hother hne).1.trans hc)]
    | none =>
      rw [fill_marker_none hm hc, occurrences_marker hm] at h
      rw [fill_marker_none hm hc]
      by_cases hne : digits = d
      · subst hne
        rw [fill_marker hm withContent_self, fill_marker hm withContent_self, ih (by omega)]
      · rw [fill_marker_none hm (hother hne).2, fill_marker_none hm ((hother hne).1.trans hc), ih (by omega)]
  | unit u rest hu ih =>
    have hle := occurrences_fill hd rest
    have happ : occurrences d (fill content rest) ≤ occurrences d ([u] ++ fill content rest) :=
      occurrences_le_append [u] _
    rw [occurrences_unit hu, fill_unit hu] at h
    rw [singleton_append] at happ
    rw [fill_unit hu, fill_unit hu]
    have hk : fill (withContent (fun _ => none) d c) ([u] ++ fill content rest) =
        [u] ++ fill (withContent (fun _ => none) d c) (fill content rest) :=
      hkept (by rw [singleton_append]; omega)
    rw [singleton_append] at hk
    rw [hk, ih (by omega), singleton_append]

/-- The units of a text that no marker has. -/
def foreign (text : JsString) : Nat := text.countP fun u => !isMarkerUnit u

theorem foreign_append (a b : JsString) : foreign (a ++ b) = foreign a + foreign b := countP_append

theorem foreign_marker (h : MarkerText digits raw) : foreign raw = 0 :=
  countP_eq_zero.mpr fun u hu => by simp [h.isMarkerUnit u hu]

theorem foreign_fill (hd : content d = none) (c text : JsString) : foreign (fill (withContent content d c) text) =
      foreign (fill content text) + occurrences d text * foreign c := by
  induction text using marker_induction with
  | nil => simp [occurrences]
  | marker digits raw rest hm ih =>
    rw [occurrences_marker hm]
    by_cases hne : digits = d
    · subst hne
      rw [fill_marker hm withContent_self, fill_marker_none hm hd, foreign_append, foreign_append, ih,
        foreign_marker hm, if_pos rfl, Nat.add_mul]
      omega
    · have hsame : withContent content d c digits = content digits := withContent_ne hne
      rw [if_neg hne, Nat.zero_add]
      cases hc : content digits with
      | some c' =>
        rw [fill_marker hm (hsame.trans hc), fill_marker hm hc, foreign_append, foreign_append, ih]
        omega
      | none =>
        rw [fill_marker_none hm (hsame.trans hc), fill_marker_none hm hc, foreign_append, foreign_append, ih]
        omega
  | unit u rest hu ih =>
    rw [occurrences_unit hu, fill_unit hu, fill_unit hu, ← singleton_append, foreign_append, ih,
      ← singleton_append (l := fill content rest), foreign_append]
    omega

/-! ### All pastes -/

/-- The content of the paste whose id has these digits. -/
def contents (pastes : List (Nat × JsString)) (digits : JsString) : Option JsString :=
  (pastes.find? fun p => decimal p.1 == digits).map (·.2)

/-- The text with every marker of a stored paste replaced by the content, all at once. -/
def substitute (pastes : List (Nat × JsString)) (text : JsString) : JsString := fill (contents pastes) text

/-- No paste brings a marker of a later one: with the contents of the pastes before it put in, a text has as many
markers of a paste as without them. -/
def NoNewMarkers (pastes : List (Nat × JsString)) (text : JsString) : Prop :=
  History.Each (fun before paste =>
    occurrences (decimal paste.1) (substitute before text) = occurrences (decimal paste.1) text) pastes

theorem expandPaste_eq (pasteId : Nat) (pasteContent text : JsString) :
    expandPaste pasteId pasteContent text = fill (withContent (fun _ => none) (decimal pasteId) pasteContent) text := by
  unfold expandPaste fill
  congr 1
  funext s
  cases hp : pasteMarker s with
  | none =>
    have hof : pasteMarkerOf pasteId s = none := by
      refine eq_none_iff_forall_ne_some.mpr fun rest hrest => ?_
      rw [pasteMarkerOf_eq_some, hp] at hrest
      cases hrest
    rw [hof, map_none, bind_none]
  | some p =>
    obtain ⟨digits, rest⟩ := p
    rw [bind_some]
    by_cases hd : digits = decimal pasteId
    · subst hd
      rw [pasteMarkerOf_eq_some.mpr hp, withContent_self, map_some, map_some]
    · have hof : pasteMarkerOf pasteId s = none := by
        refine eq_none_iff_forall_ne_some.mpr fun rest' hrest => ?_
        rw [pasteMarkerOf_eq_some, hp] at hrest
        exact hd (congrArg Prod.fst (Option.some.inj hrest))
      rw [hof, withContent_ne hd, map_none, map_none]

variable {pastes : List (Nat × JsString)} {paste : Nat × JsString}

theorem contents_eq_none (h : paste.1 ∉ pastes.map Prod.fst) : contents pastes (decimal paste.1) = none := by
  refine map_eq_none_iff.mpr (find?_eq_none.mpr fun p hp hdec => ?_)
  have heq : decimal p.1 = decimal paste.1 := by simpa using hdec
  exact h (mem_map.mpr ⟨p, hp, decimal_inj heq⟩)

theorem contents_concat (h : paste.1 ∉ pastes.map Prod.fst) :
    contents (pastes ++ [paste]) = withContent (contents pastes) (decimal paste.1) paste.2 := by
  funext digits
  by_cases hd : digits = decimal paste.1
  · subst hd
    have hnone := map_eq_none_iff.mp (contents_eq_none h)
    rw [withContent_self, contents, find?_append, hnone, none_or]
    simp
  · rw [withContent_ne hd, contents, contents, find?_append]
    have hlast : ([paste].find? fun p => decimal p.1 == digits) = none := by simp [Ne.symm hd]
    rw [hlast, or_none]

/-- The pastes replaced one after another, in the order of the list. -/
def expandAll (pastes : List (Nat × JsString)) (text : JsString) : JsString :=
  pastes.foldl (fun result paste => expandPaste paste.1 paste.2 result) text

theorem expandAll_concat (pastes : List (Nat × JsString)) (paste : Nat × JsString) (text : JsString) :
    expandAll (pastes ++ [paste]) text =
      fill (withContent (fun _ => none) (decimal paste.1) paste.2) (expandAll pastes text) := by
  rw [expandAll, foldl_append, foldl_cons, foldl_nil, expandPaste_eq, expandAll]

theorem nodup_concat (h : ((pastes ++ [paste]).map Prod.fst).Nodup) :
    (pastes.map Prod.fst).Nodup ∧ paste.1 ∉ pastes.map Prod.fst := by
  rw [map_append, nodup_append] at h
  exact ⟨h.1, fun hmem => h.2.2 paste.1 hmem paste.1 (by simp) rfl⟩

/-- While no paste brings a marker of a later one, one after another and all at once are the same. -/
theorem expandAll_eq (hnodup : (pastes.map Prod.fst).Nodup) {text : JsString} (h : NoNewMarkers pastes text) :
    expandAll pastes text = substitute pastes text := by
  induction pastes using reverseRecOn with
  | nil => exact (fill_none text).symm
  | append_singleton pastes paste ih =>
    obtain ⟨hnodup, hnew⟩ := nodup_concat hnodup
    have hbefore : NoNewMarkers pastes text := fun a x b hab => h a x (b ++ [paste]) (by simp [hab])
    have hlast := h pastes paste [] rfl
    rw [expandAll_concat, ih hnodup hbefore, substitute, substitute, contents_concat hnew]
    exact fill_step (contents_eq_none hnew) hlast

/-- The markers of a paste stay while others are replaced. -/
theorem occurrences_expandAll {d : JsString} (h : ∀ p ∈ pastes, decimal p.1 ≠ d) (text : JsString) :
    occurrences d text ≤ occurrences d (expandAll pastes text) := by
  induction pastes using reverseRecOn with
  | nil => exact Nat.le_refl _
  | append_singleton pastes paste ih =>
    rw [expandAll_concat]
    have hd : withContent (fun _ => none) (decimal paste.1) paste.2 d = none :=
      withContent_ne (Ne.symm (h paste (by simp)))
    exact (ih fun p hp => h p (by simp [hp])).trans (occurrences_fill hd _)

/-- One after another puts in at least as many units that no marker has, and no more only when no paste brings a
marker of a later one. -/
theorem foreign_expandAll (hnodup : (pastes.map Prod.fst).Nodup) (hforeign : ∀ p ∈ pastes, 0 < foreign p.2)
    (text : JsString) : foreign (substitute pastes text) ≤ foreign (expandAll pastes text) ∧
      (foreign (expandAll pastes text) = foreign (substitute pastes text) → NoNewMarkers pastes text) := by
  induction pastes using reverseRecOn with
  | nil =>
    have hsub : substitute [] text = expandAll [] text := fill_none text
    rw [hsub]
    exact ⟨Nat.le_refl _, fun _ => History.each_nil⟩
  | append_singleton pastes paste ih =>
    obtain ⟨hnodup, hnew⟩ := nodup_concat hnodup
    obtain ⟨hle, heq⟩ := ih hnodup fun p hp => hforeign p (by simp [hp])
    have hpos := hforeign paste (by simp)
    have hkeep : occurrences (decimal paste.1) text ≤ occurrences (decimal paste.1) (expandAll pastes text) := by
      refine occurrences_expandAll (fun p hp hdec => hnew ?_) text
      exact mem_map.mpr ⟨p, hp, decimal_inj hdec⟩
    have hcode : foreign (expandAll (pastes ++ [paste]) text) = foreign (expandAll pastes text) +
          occurrences (decimal paste.1) (expandAll pastes text) * foreign paste.2 := by
      rw [expandAll_concat, foreign_fill rfl, fill_none]
    have hspec : foreign (substitute (pastes ++ [paste]) text) =
        foreign (substitute pastes text) + occurrences (decimal paste.1) text * foreign paste.2 := by
      rw [substitute, contents_concat hnew, foreign_fill (contents_eq_none hnew), substitute]
    have hmul := Nat.mul_le_mul_right (foreign paste.2) hkeep
    rw [hcode, hspec]
    refine ⟨by omega, fun htotal => ?_⟩
    have hsame : foreign (expandAll pastes text) = foreign (substitute pastes text) := by omega
    have hocc : occurrences (decimal paste.1) (expandAll pastes text) = occurrences (decimal paste.1) text :=
      Nat.eq_of_mul_eq_mul_right hpos (by omega)
    refine History.each_concat (heq hsame) ?_
    rw [← expandAll_eq hnodup (heq hsame)]
    exact hocc

namespace Editor

/-- **What is submitted.** `onSubmit` gets the expanded text, trimmed. It is the substitution of all stored pastes at
once when no paste brings a marker of a later one, and then only, where every content has a unit that markers are not
made of. -/
theorem submitted_verbatim (ed : Editor) : ed.submitValue.submitted = trim ed.getExpandedText :: ed.submitted ∧
      (NoNewMarkers ed.pastes.entries ed.getText → ed.getExpandedText = substitute ed.pastes.entries ed.getText) ∧
      ((∀ p ∈ ed.pastes.entries, 0 < foreign p.2) → ed.getExpandedText = substitute ed.pastes.entries ed.getText →
          NoNewMarkers ed.pastes.entries ed.getText) := by
  have hcode : ed.getExpandedText = expandAll ed.pastes.entries ed.getText := rfl
  refine ⟨rfl, fun h => ?_, fun hforeign h => ?_⟩
  · rw [hcode, expandAll_eq ed.pastes.nodup h]
  · refine (foreign_expandAll ed.pastes.nodup hforeign ed.getText).2 ?_
    rw [← hcode, h]

/-- A paste of eleven lines, as the terminal sends it. -/
def bracketed (first : String) : JsString :=
  pasteStartSequence ++ ofAscii first ++ (List.replicate 10 [newline, 0x78]).flatten ++ pasteEndSequence

/-- Two pastes, the first of which has the marker of the second in it. -/
def pastedTwice : List Action := [.input (bracketed "see [paste #2]"), .input (bracketed "B")]

/-- The text is not the two contents one after the other: the first is changed. -/
theorem paste_altered : ((Transition.steps (step Host.plain) pastedTwice (Editor.new 24)).any fun ed =>
      ed.getText == ofAscii "[paste #1 +11 lines][paste #2 +11 lines]" &&
        (substitute ed.pastes.entries ed.getText).take 15 == ofAscii "see [paste #2]\n" &&
        ed.getExpandedText.take 7 == ofAscii "see B\nx" &&
        decide (ed.getExpandedText ≠ substitute ed.pastes.entries ed.getText)) = true := by
  decide

end Editor

end Tui
end RePrime
