import RePrime.Tui.WrapLayout

/-!
# RePrime.Tui.WrapContent

What the lines of a text show and how wide text is that is put together from items.

* `Laid.visible`: rows show what the items show.
* `visibleWidth_render`: the width of items is the width of their units.
* `visible_lines`: the lines of `wrapTextWithAnsi` show what the text shows.
-/

namespace RePrime
namespace Tui

open List
open AnsiCodeTracker
open JsText (isSpace newline)

/-- The visible characters that are no white space. -/
def visible (s : JsString) : JsString := (units (scan s)).filter fun c => !isSpace c

variable {items : List Item}

theorem Blanks.filter_units (h : Blanks items) : (units items).filter (fun c => !isSpace c) = [] := by
  rw [filter_eq_nil_iff]
  intro c hc
  simp [h.space c hc]

theorem Row.Ok.visible {r : Row} (h : r.Ok) : visible r.text = (units r.block).filter fun c => !isSpace c := by
  rw [Tui.visible, h.scan_text, r.units_items]

theorem Laid.visible {σ τ : AnsiCodeTracker} {rows : List Row} (h : Laid σ rows items τ)
    (hσ : σ.Ok) (hc : Closed items) :
    (rows.map Row.text).flatMap visible = (units items).filter fun c => !isSpace c := by
  induction h with
  | start => rfl
  | @row rows items blanks r hlaid hb ih =>
    have hok := (Laid.row hlaid hb).ok hσ hc
    have hr := hok.1 r (mem_append_right _ mem_cons_self)
    obtain ⟨hitems, -⟩ := closed_append.mp (closed_append.mp hc).1
    rw [map_append, flatMap_append, ih hitems, map_singleton, flatMap_singleton, hr.visible,
      units_append, units_append, filter_append, filter_append, hb.filter_units, append_nil]

/-! ### The input lines -/

variable {t : AnsiCodeTracker}

theorem closed_codes_scan (ht : t.Ok) {line : JsString} (h : Closed (scan line)) :
    scan (t.getActiveCodes ++ line) = t.codeItems ++ scan line := by
  have hclosed := ht.closed_codeItems.append h
  have hrender : render (t.codeItems ++ scan line) = t.getActiveCodes ++ line := by
    rw [render_append, t.render_codeItems, render_scan]
  rw [← hrender, scan_render hclosed]

variable {lines : List JsString}

theorem prepared_closed (ht : t.Ok)
    (h : ∀ line ∈ lines, Closed (scan line)) : ∀ line ∈ prepared t lines, Closed (scan line) := by
  induction lines generalizing t with
  | nil =>
    intro line hl
    cases hl
  | cons line lines ih =>
    have hline := h line mem_cons_self
    intro line' hl
    rcases mem_cons.mp hl with rfl | hl
    · rw [closed_codes_scan ht hline]
      exact ht.closed_codeItems.append hline
    · exact ih (ht.run hline) (fun l hl => h l (mem_cons_of_mem _ hl)) line' hl

theorem wrapSingleLine_visible (M : Metrics) (width : Nat) {line : JsString} (hc : Closed (scan line)) :
    (wrapSingleLine M line width).flatMap visible = visible line := by
  obtain ⟨rows, τ, hlaid, hrows⟩ := wrapSingleLine_laid M width hc
  rw [hrows, hlaid.visible ok_fresh hc]
  rfl

theorem prepared_visible (ht : t.Ok)
    (h : ∀ line ∈ lines, Closed (scan line)) : (prepared t lines).flatMap visible = lines.flatMap visible := by
  induction lines generalizing t with
  | nil => rfl
  | cons line lines ih =>
    have hline := h line mem_cons_self
    have hlines := ih (ht.run hline) (fun l hl => h l (mem_cons_of_mem _ hl))
    have hhead : visible (t.getActiveCodes ++ line) = visible line := by
      rw [visible, visible, closed_codes_scan ht hline, units_append, units_codeItems, nil_append]
    rw [prepared, flatMap_cons, flatMap_cons, update, hlines, hhead]

/-- `lines.join("\n")` as items. -/
def joinLines : List JsString → List Item
  | [] => []
  | [line] => scan line
  | line :: line' :: lines => scan line ++ Item.unit newline :: joinLines (line' :: lines)

theorem render_joinLines_splitOn (s : JsString) : render (joinLines (splitOn newline s)) = s := by
  induction s with
  | nil => rfl
  | cons c s ih =>
    obtain ⟨part, parts, hparts⟩ := exists_cons_of_ne_nil (splitOn_ne_nil newline s)
    rw [splitOn]
    rw [hparts] at ih
    split
    · rename_i hc
      rw [hparts, joinLines, hc]
      change render (.unit newline :: joinLines (part :: parts)) = _
      rw [render_cons, ih]
      rfl
    · rw [hparts]
      dsimp only
      cases parts with
      | nil =>
        rw [joinLines, render_scan] at ih ⊢
        rw [ih]
      | cons part' parts =>
        rw [joinLines, render_append, render_scan] at ih ⊢
        rw [cons_append, ih]

theorem closed_joinLines (h : ∀ line ∈ lines, Closed (scan line)) : Closed (joinLines lines) := by
  fun_induction joinLines lines with
  | case1 =>
    intro x hx
    cases hx
  | case2 line => exact h line mem_cons_self
  | case3 line line' lines ih =>
    refine Closed.append (h line mem_cons_self) ?_
    intro x hx
    rcases mem_cons.mp hx with rfl | hx
    · exact show newline ≠ esc by decide
    · exact ih (fun l hl => h l (mem_cons_of_mem _ hl)) x hx

theorem units_joinLines (lines : List JsString) :
    (units (joinLines lines)).filter (fun c => !isSpace c) = lines.flatMap visible := by
  fun_induction joinLines lines with
  | case1 => rfl
  | case2 line => simp [visible]
  | case3 line line' lines ih =>
    have hcons : units (.unit newline :: joinLines (line' :: lines)) = newline :: units (joinLines (line' :: lines)) :=
      rfl
    rw [units_append, filter_append, hcons, filter_cons_of_neg (by decide), ih, flatMap_cons]
    rfl

theorem scan_text {text : JsString} (h : ∀ line ∈ splitOn newline text, Closed (scan line)) :
    scan text = joinLines (splitOn newline text) := by
  have hscan := scan_render (closed_joinLines h)
  rwa [render_joinLines_splitOn] at hscan

theorem visible_lines (M : Metrics) (width : Nat) {text : JsString}
    (h : ∀ line ∈ splitOn newline text, WellFormed line) :
    (wrapTextWithAnsi M text width).flatMap visible = visible text := by
  have hclosed : ∀ line ∈ splitOn newline text, Closed (scan line) := fun line hl => (h line hl).closed
  have hprepared := prepared_closed ok_fresh hclosed
  have hlines : ∀ lines : List JsString, (∀ line ∈ lines, Closed (scan line)) →
      (lines.flatMap fun line => wrapSingleLine M line width).flatMap visible = lines.flatMap visible := by
    intro lines hl
    rw [flatMap_assoc]
    refine flatMap_congr ?_
    intro line hline
    exact wrapSingleLine_visible M width (hl line hline)
  rw [wrapTextWithAnsi_eq, hlines _ hprepared, prepared_visible ok_fresh hclosed, visible,
    scan_text hclosed, units_joinLines]

/-! ### Widths -/

def expandItem : Item → List Item
  | .code s => [.code (expandTabs s)]
  | .unit c => (expandTabs [c]).map .unit

theorem expandTabs_cons (c : UInt16) (s : JsString) : expandTabs (c :: s) = expandTabs [c] ++ expandTabs s := by
  simp [expandTabs]

theorem expandTabs_append (a b : JsString) : expandTabs (a ++ b) = expandTabs a ++ expandTabs b :=
  flatMap_append

theorem expandTabs_other {c : UInt16} (h : c ≠ 9) : expandTabs [c] = [c] := by
  simp [expandTabs, h]

variable {s : JsString}

theorem expandTabs_none (h : ∀ c ∈ s, c ≠ 9) : expandTabs s = s := by
  induction s with
  | nil => rfl
  | cons c s ih =>
    rw [expandTabs_cons, expandTabs_other (h c mem_cons_self), ih (fun d hd => h d (mem_cons_of_mem _ hd))]
    rfl

theorem csiLength_no_tab {i : Bool} (h : csiLength i s = some s.length) : ∀ c ∈ s, c ≠ 9 := by
  induction s generalizing i with
  | nil => cases h
  | cons b rest ih =>
    have hrest : ∀ j, (csiLength j rest).map (· + 1) = some (b :: rest).length → ∀ c ∈ rest, c ≠ 9 := by
      intro j hj
      obtain ⟨n, hn, hlen⟩ := Option.map_eq_some_iff.mp hj
      exact ih (hn.trans (congrArg some (Nat.succ.inj hlen)))
    rw [csiLength] at h
    intro c hc
    split at h
    · rename_i hb
      rcases mem_cons.mp hc with rfl | hc
      · rintro rfl
        exact absurd hb.1 (by decide)
      · exact hrest _ h c hc
    · split at h
      · rename_i hb
        rcases mem_cons.mp hc with rfl | hc
        · rintro rfl
          exact absurd hb.1 (by decide)
        · exact hrest _ h c hc
      · split at h
        · rename_i hb
          rw [Option.some.injEq, length_cons] at h
          have hnil : rest = [] := length_eq_zero_iff.mp (by omega)
          rw [hnil, mem_singleton] at hc
          rw [hc]
          rintro rfl
          exact absurd hb.1 (by decide)
        · cases h

theorem controlStringLength_space {a : Bool} {c : UInt16} (hb : c ≠ bel) (he : c ≠ esc) (s : JsString) :
    controlStringLength a (c :: s) = (controlStringLength a s).map (· + 1) := by
  rw [controlStringLength, if_neg (fun h => hb h.2), if_neg (fun h => he h.1)]

theorem controlStringLength_expandTabs {a : Bool} (h : controlStringLength a s = some s.length) :
    controlStringLength a (expandTabs s) = some (expandTabs s).length := by
  induction s with
  | nil => cases h
  | cons b rest ih =>
    rw [controlStringLength] at h
    split at h
    · rename_i hb
      rw [Option.some.injEq, length_cons] at h
      have hnil : rest = [] := length_eq_zero_iff.mp (by omega)
      rw [hnil, hb.2, expandTabs_other (by decide), controlStringLength, if_pos ⟨hb.1, rfl⟩]
      rfl
    · rename_i hb
      split at h
      · rename_i he
        obtain ⟨c, rfl⟩ : ∃ c, rest = [c] := by
          rw [Option.some.injEq, length_cons] at h
          exact length_eq_one_iff.mp (by omega)
        have hc : c = backslash := by simpa using he.2
        have hexp : expandTabs [b, c] = [b, c] := by
          refine expandTabs_none ?_
          rw [he.1, hc]
          decide
        rw [hexp, controlStringLength, if_neg hb, if_pos he]
        rfl
      · rename_i he
        obtain ⟨n, hn, hlen⟩ := Option.map_eq_some_iff.mp h
        have hrest := ih (hn.trans (congrArg some (Nat.succ.inj hlen)))
        by_cases h9 : b = 9
        · have hexp : expandTabs (b :: rest) = 0x20 :: 0x20 :: 0x20 :: expandTabs rest := by
            rw [expandTabs_cons, h9]
            rfl
          rw [hexp, controlStringLength_space (by decide) (by decide),
            controlStringLength_space (by decide) (by decide),
            controlStringLength_space (by decide) (by decide), hrest]
          rfl
        · have hhead : (expandTabs rest).head? = some backslash → rest.head? = some backslash := by
            cases rest with
            | nil => exact id
            | cons d rest =>
              intro hd
              by_cases hd9 : d = 9
              · rw [hd9] at hd
                cases hd
              · rw [expandTabs_cons, expandTabs_other hd9] at hd
                exact hd
          rw [expandTabs_cons, expandTabs_other h9, singleton_append, controlStringLength, if_neg hb,
            if_neg (fun hh => he ⟨hh.1, hhead hh.2⟩), hrest]
          rfl

theorem Complete.expandTabs (h : Complete s) : Complete (expandTabs s) := by
  have hkey : ∀ {f : JsString → Option Nat} {next : UInt16} {rest : JsString},
      (f rest = some rest.length → f (Tui.expandTabs rest) = some (Tui.expandTabs rest).length) → next ≠ 9 →
      (f rest).map (· + 2) = some (esc :: next :: rest).length →
      Tui.expandTabs (esc :: next :: rest) = esc :: next :: Tui.expandTabs rest ∧
        (f (Tui.expandTabs rest)).map (· + 2) = some (Tui.expandTabs (esc :: next :: rest)).length := by
    intro f next rest hf hnext hr
    obtain ⟨n, hn, hlen⟩ := Option.map_eq_some_iff.mp hr
    have hlen : n = rest.length := by
      simp only [length_cons] at hlen
      omega
    have hexp : Tui.expandTabs (esc :: next :: rest) = esc :: next :: Tui.expandTabs rest := by
      rw [expandTabs_cons, expandTabs_cons next, expandTabs_other hnext]
      rfl
    rw [hexp, hf (by rw [hn, hlen])]
    exact ⟨rfl, rfl⟩
  rw [Complete, extractAnsi.eq_def] at h
  split at h
  · rename_i e next rest
    split at h
    · cases h
    · rename_i he
      have he : e = esc := not_not.mp he
      subst he
      split at h
      · rename_i hn
        obtain ⟨hexp, hlen⟩ := hkey (f := csiLength false)
          (fun hr => by rw [expandTabs_none (csiLength_no_tab hr)]; exact hr) (by rw [hn]; decide) h
        rw [Complete, hexp, extractAnsi, if_neg (by simp), if_pos hn, hlen, hexp]
      · rename_i hn
        split at h
        · rename_i ho
          obtain ⟨hexp, hlen⟩ := hkey (f := controlStringLength true) controlStringLength_expandTabs
            (by rcases ho with rfl | rfl <;> decide) h
          rw [Complete, hexp, extractAnsi, if_neg (by simp), if_neg hn, if_pos ho, hlen, hexp]
        · rename_i ho
          split at h
          · rename_i hp
            obtain ⟨hexp, hlen⟩ := hkey (f := controlStringLength false) controlStringLength_expandTabs
              (by rcases hp with rfl | rfl | rfl <;> decide) h
            rw [Complete, hexp, extractAnsi, if_neg (by simp), if_neg hn, if_neg ho, if_pos hp, hlen, hexp]
          · cases h
  · cases h

theorem render_expand (items : List Item) : render (items.flatMap expandItem) = expandTabs (render items) := by
  induction items with
  | nil => rfl
  | cons x items ih =>
    rw [flatMap_cons, render_append, ih, render_cons, expandTabs_append]
    congr 1
    cases x with
    | code s => exact render_code _
    | unit c => exact render_units _

theorem units_expand (items : List Item) : units (items.flatMap expandItem) = expandTabs (units items) := by
  induction items with
  | nil => rfl
  | cons x items ih =>
    rw [flatMap_cons, units_append, ih]
    cases x with
    | code s => rfl
    | unit c =>
      change units ((expandTabs [c]).map .unit) ++ _ = expandTabs (c :: units items)
      rw [units_map_unit]
      exact (expandTabs_cons c _).symm

theorem closed_expand (h : Closed items) : Closed (items.flatMap expandItem) := by
  intro x hx
  obtain ⟨y, hy, hxy⟩ := mem_flatMap.mp hx
  have hok := h y hy
  cases y with
  | code s =>
    rw [expandItem, mem_singleton] at hxy
    rw [hxy]
    exact Complete.expandTabs hok
  | unit c =>
    obtain ⟨d, hd, rfl⟩ := mem_map.mp hxy
    by_cases hc : c = 9
    · rw [hc] at hd
      have hd : d = 0x20 := by simpa [expandTabs] using hd
      rw [hd]
      exact show (0x20 : UInt16) ≠ esc by decide
    · rw [expandTabs_other hc, mem_singleton] at hd
      rw [hd]
      exact hok

theorem esc_not_printable (h : isPrintableAscii s = true) : ∀ c ∈ s, 0x20 ≤ c ∧ c ≤ 0x7e := by
  intro c hc
  have := all_eq_true.mp h c hc
  simpa using this

/-- The width of items is that of their units, with tabs as three spaces. -/
theorem visibleWidth_closed (M : Metrics) (h : Closed items) :
    visibleWidth M (render items) = M.clusterWidth (expandTabs (units items)) := by
  rw [visibleWidth]
  by_cases hnil : render items = []
  · rw [if_pos hnil, (render_eq_nil h).mp hnil]
    have := M.ascii [] (fun c hc => by cases hc)
    exact this.symm
  · rw [if_neg hnil]
    by_cases hp : isPrintableAscii (render items) = true
    · have hall := esc_not_printable hp
      have hunits : items = (units items).map .unit := by
        have hnoesc : ∀ x ∈ items, ∃ c, x = .unit c := by
          intro x hx
          cases x with
          | code s =>
            have hesc : esc ∈ render items :=
              mem_flatMap.mpr ⟨_, hx, mem_of_mem_head? (extractAnsi_take (h _ hx)).2.2.1⟩
            exact absurd (hall esc hesc).1 (by decide)
          | unit c => exact ⟨c, rfl⟩
        clear hall hp hnil h
        induction items with
        | nil => rfl
        | cons x items ih =>
          obtain ⟨c, rfl⟩ := hnoesc x mem_cons_self
          have := ih (fun y hy => hnoesc y (mem_cons_of_mem _ hy))
          change _ = Item.unit c :: (units items).map Item.unit
          rw [← this]
      have hrender : render items = units items := by
        conv_lhs => rw [hunits, render_units]
      rw [hrender] at hall
      rw [if_pos hp, hrender, expandTabs_none, Metrics.clusterWidth, M.ascii _ hall]
      rintro c hc rfl
      exact absurd (hall 9 hc).1 (by decide)
    · rw [if_neg hp, ← render_expand, scan_render (closed_expand h), units_expand]

theorem closed_units (h : Closed items) : Closed ((units items).map .unit) := by
  intro x hx
  obtain ⟨c, hc, rfl⟩ := mem_map.mp hx
  obtain ⟨y, hy, hyc⟩ := mem_filterMap.mp hc
  cases y with
  | code s => cases hyc
  | unit d =>
    cases hyc
    exact h _ hy

theorem visibleWidth_render (M : Metrics) (h : Closed items) :
    visibleWidth M (render items) = visibleWidth M (units items) := by
  have hunits := visibleWidth_closed M (closed_units h)
  rw [render_units, units_map_unit] at hunits
  rw [hunits, visibleWidth_closed M h]

end Tui
end RePrime
