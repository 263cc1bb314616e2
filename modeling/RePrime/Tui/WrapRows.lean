import RePrime.Tui.ActiveCodes
import RePrime.Tui.Wrap

/-!
# RePrime.Tui.WrapRows

Lines as rows of items: what a trim takes off, which tokens a text has, and when rows hold a text.

* `trimEnd_render`: a trim takes off blank units and stops at a sequence. `tokens_eq`: tokens are stretches of items.
* `Row`: a line as the tracker at its start, its items and whether the end reset is added.
* `Laid`: rows that hold the items of a text in order, less blanks at their ends.
-/

namespace RePrime
namespace Tui

open List
open AnsiCodeTracker
open JsText (isSpace trimEnd)

/-! ### Items and their ends -/

theorem render_eq_nil {items : List Item} (h : Closed items) : render items = [] ↔ items = [] := by
  constructor
  · intro hr
    cases items with
    | nil => rfl
    | cons x items =>
      have hpos := (h x mem_cons_self).length_pos
      rw [render_cons, append_eq_nil_iff] at hr
      rw [hr.1] at hpos
      cases hpos
  · rintro rfl
    rfl

theorem render_units (s : JsString) : render (s.map .unit) = s := by
  induction s with
  | nil => rfl
  | cons c s ih => rw [map_cons, render_cons, ih]; rfl

@[simp] theorem units_append (a b : List Item) : units (a ++ b) = units a ++ units b := filterMap_append

@[simp] theorem units_map_unit (s : JsString) : units (s.map .unit) = s := by
  induction s with
  | nil => rfl
  | cons c s ih =>
    change c :: units (s.map .unit) = _
    rw [ih]

def Item.isBlank : Item → Bool
  | .code _ => false
  | .unit c => isSpace c

def Blanks (items : List Item) : Prop := ∀ x ∈ items, x.isBlank = true

theorem Blanks.append {a b : List Item} (ha : Blanks a) (hb : Blanks b) : Blanks (a ++ b) := by
  intro x hx
  exact (mem_append.mp hx).elim (ha x) (hb x)

theorem Blanks.run {items : List Item} (h : Blanks items) (t : AnsiCodeTracker) : t.run items = t := by
  induction items generalizing t with
  | nil => rfl
  | cons x items ih =>
    have hx := h x mem_cons_self
    rw [run_cons]
    cases x with
    | code s => cases hx
    | unit c => exact ih (fun y hy => h y (mem_cons_of_mem _ hy)) t

theorem Blanks.space {items : List Item} (h : Blanks items) : ∀ c ∈ units items, isSpace c = true := by
  intro c hc
  obtain ⟨x, hx, hxc⟩ := mem_filterMap.mp hc
  cases x with
  | code s => cases hxc
  | unit d =>
    cases hxc
    exact h _ hx

/-- A text that `trim` empties has no sequence. -/
theorem blanks_of_isBlank {items : List Item} (hc : Closed items) (h : isBlank (render items) = true) :
    Blanks items := by
  intro x hx
  have hall : ∀ c ∈ x.text, isSpace c = true := by
    intro c hcx
    exact all_eq_true.mp h c (mem_flatMap.mpr ⟨x, hx, hcx⟩)
  cases x with
  | code s =>
    have hhead := (extractAnsi_take (hc _ hx)).2.2.1
    have hesc : esc ∈ s := mem_of_mem_head? hhead
    exact absurd (hall esc hesc) (by decide)
  | unit c => exact hall c mem_cons_self

theorem isSpace_final {c : UInt16} (hlo : 0x40 ≤ c) (hhi : c ≤ 0x7e) : isSpace c = false := by
  have hlo := UInt16.le_iff_toNat_le.mp hlo
  have hhi := UInt16.le_iff_toNat_le.mp hhi
  simp only [isSpace, Bool.or_eq_false_iff, Bool.and_eq_false_iff, decide_eq_false_iff_not, beq_eq_false_iff_ne,
    ne_eq, UInt16.le_iff_toNat_le, ← UInt16.toNat_inj]
  simp only [UInt16.reduceToNat] at hlo hhi ⊢
  omega

theorem Complete.last {s : JsString} (h : Complete s) : ∃ body c, s = body ++ [c] ∧ isSpace c = false := by
  obtain ⟨c, hlast, hc⟩ := h.ends
  obtain ⟨body, rfl⟩ := getLast?_eq_some_iff.mp hlast
  refine ⟨body, c, rfl, ?_⟩
  rcases hc with ⟨_, -, -, -, hlo, hhi⟩ | rfl | rfl
  · exact isSpace_final hlo hhi
  · decide
  · decide

def trimItems (items : List Item) : List Item := items.rdropWhile Item.isBlank

theorem trimItems_concat (items : List Item) (x : Item) :
    trimItems (items ++ [x]) = if x.isBlank then trimItems items else items ++ [x] :=
  rdropWhile_concat ..

theorem trimEnd_render {items : List Item} (h : Closed items) : trimEnd (render items) = render (trimItems items) := by
  induction items using reverseRecOn with
  | nil => rfl
  | append_singleton items x ih =>
    obtain ⟨hitems, hx⟩ := closed_append.mp h
    have hx := hx x mem_cons_self
    rw [trimItems_concat, render_append]
    cases x with
    | code s =>
      obtain ⟨body, c, rfl, hc⟩ := Complete.last hx
      have hrender : render [Item.code (body ++ [c])] = body ++ [c] := by simp [render, Item.text]
      rw [if_neg (by simp [Item.isBlank]), render_append, hrender, ← append_assoc]
      exact rdropWhile_concat_neg _ _ _ (by simp [hc])
    | unit c =>
      have hrender : render [Item.unit c] = [c] := rfl
      rw [hrender, trimEnd, rdropWhile_concat]
      split
      · rename_i hc
        rw [if_pos (show (Item.unit c).isBlank = true from hc)]
        exact ih hitems
      · rename_i hc
        rw [if_neg (show ¬ (Item.unit c).isBlank = true from hc), render_append, hrender]

theorem trimItems_append {a : List Item} (ha : trimItems a = a) (b : List Item) :
    trimItems (a ++ b) = a ++ trimItems b := by
  induction b using reverseRecOn with
  | nil => rw [append_nil, ha]; exact (append_nil a).symm
  | append_singleton b x ih =>
    rw [← append_assoc, trimItems_concat, trimItems_concat, ih]
    split
    · rfl
    · rw [append_assoc]

theorem trimItems_append_kept (a : List Item) {b : List Item} (hne : b ≠ []) (hb : trimItems b = b) :
    trimItems (a ++ b) = a ++ b := by
  cases b using reverseRecOn with
  | nil => exact absurd rfl hne
  | append_singleton b x =>
    rw [trimItems_concat] at hb
    rw [← append_assoc, trimItems_concat]
    split
    · rename_i hx
      rw [if_pos hx] at hb
      have hle : (trimItems b).length ≤ b.length := ( rdropWhile_prefix _ _).length_le
      rw [hb, length_append, length_singleton] at hle
      omega
    · rfl

theorem trimItems_codes {items : List Item} (h : units items = []) : trimItems items = items := by
  cases items using reverseRecOn with
  | nil => rfl
  | append_singleton items x =>
    rw [trimItems_concat, if_neg]
    intro hx
    cases x with
    | code s => cases hx
    | unit c =>
      rw [units_append, append_eq_nil_iff] at h
      cases h.2

theorem trimItems_split (items : List Item) : ∃ blanks, items = trimItems items ++ blanks ∧ Blanks blanks := by
  induction items using reverseRecOn with
  | nil =>
    refine ⟨[], rfl, ?_⟩
    intro x hx
    cases hx
  | append_singleton items x ih =>
    rw [trimItems_concat]
    split
    · rename_i hx
      obtain ⟨blanks, hsplit, hb⟩ := ih
      refine ⟨blanks ++ [x], ?_, ?_⟩
      · rw [← append_assoc, ← hsplit]
      · refine hb.append ?_
        intro y hy
        rw [mem_singleton.mp hy]
        exact hx
    · refine ⟨[], (append_nil _).symm, ?_⟩
      intro y hy
      cases hy

/-! ### Tokens -/

/-- The tokens so far with what is open are the items so far. -/
def TokenState.Cuts (st : TokenState) (items : List Item) : Prop :=
  ∃ (tks : List (List Item)) (current pending : List Item),
    st.tokens = tks.map render ∧ st.current = render current ∧ st.pendingAnsi = render pending ∧
      tks.flatten ++ current ++ pending = items

theorem TokenState.Cuts.step {st : TokenState} {items : List Item} (h : st.Cuts items) (x : Item) :
    (tokenStep st x).Cuts (items ++ [x]) := by
  obtain ⟨tks, current, pending, ht, hc, hp, rfl⟩ := h
  cases x with
  | code s =>
    refine ⟨tks, current, pending ++ [Item.code s], ht, hc, ?_, by simp⟩
    rw [render_append, ← hp]
    simp [tokenStep, render, Item.text]
  | unit c =>
    by_cases hs : decide (c = 0x20) ≠ st.inWhitespace ∧ st.current ≠ []
    · refine ⟨tks ++ [current], pending ++ [Item.unit c], [], ?_, ?_, rfl, by simp⟩
      · simp only [tokenStep, if_pos hs]
        rw [ht, hc, map_append]
        rfl
      · simp only [tokenStep, if_pos hs]
        rw [hp, render_append]
        rfl
    · refine ⟨tks, current ++ pending ++ [Item.unit c], [], ?_, ?_, rfl, by simp⟩
      · simp only [tokenStep, if_neg hs]
        exact ht
      · simp only [tokenStep, if_neg hs]
        rw [hc, hp, render_append, render_append]
        rfl

theorem TokenState.Cuts.foldl {st : TokenState} {items : List Item} (h : st.Cuts items) (more : List Item) :
    (more.foldl tokenStep st).Cuts (items ++ more) := by
  induction more generalizing st items with
  | nil => rwa [append_nil]
  | cons x more ih =>
    have := ih (h.step x)
    rwa [append_assoc] at this

theorem tokens_eq {text : JsString} (h : Closed (scan text)) :
    ∃ tks : List (List Item), splitIntoTokensWithAnsi text = tks.map render ∧ tks.flatten = scan text := by
  have hstart : TokenState.Cuts ⟨[], [], [], false⟩ [] := ⟨[], [], [], rfl, rfl, rfl, rfl⟩
  obtain ⟨tks, current, pending, ht, hc, hp, heq⟩ := hstart.foldl (scan text)
  rw [nil_append] at heq
  rw [splitIntoTokensWithAnsi, TokenState.finish, hc, hp, ht, ← render_append]
  have hclosed : Closed (current ++ pending) := by
    rw [← heq, append_assoc] at h
    exact (closed_append.mp h).2
  split
  · rename_i hnil
    refine ⟨tks, rfl, ?_⟩
    rw [← heq, append_assoc, (render_eq_nil hclosed).mp hnil, append_nil]
  · refine ⟨tks ++ [current ++ pending], by simp, ?_⟩
    rw [← heq]
    simp

/-! ### Rows -/

structure Row where
  start : AnsiCodeTracker
  block : List Item
  /-- Closed at a break, by `getLineEndReset`. -/
  ended : Bool

namespace Row

def stop (r : Row) : AnsiCodeTracker := r.start.run r.block

def items (r : Row) : List Item := r.start.codeItems ++ r.block ++ if r.ended then r.stop.resetItems else []

def text (r : Row) : JsString := render r.items

structure Ok (r : Row) : Prop where
  start : r.start.Ok
  block : Closed r.block

variable {r : Row}

theorem Ok.closed (h : r.Ok) : Closed r.items := by
  refine Closed.append (h.start.closed_codeItems.append h.block) ?_
  split
  · exact r.stop.closed_resetItems
  · intro x hx
    cases hx

theorem Ok.scan_text (h : r.Ok) : scan r.text = r.items := scan_render h.closed

theorem units_items (r : Row) : units r.items = units r.block := by
  rw [items, units_append, units_append, units_codeItems, nil_append]
  split
  · rw [units_resetItems, append_nil]
  · exact append_nil _

/-- The reset stops a trim; a row without one loses its blanks. -/
def trim (r : Row) : Row :=
  if r.ended = true ∧ r.stop.resetItems ≠ [] then r else { r with block := trimItems r.block }

theorem trim_split (r : Row) : ∃ blanks, r.block = r.trim.block ++ blanks ∧ Blanks blanks := by
  rw [trim]
  split
  · refine ⟨[], (append_nil _).symm, ?_⟩
    intro x hx
    cases hx
  · exact trimItems_split r.block

theorem trim_start (r : Row) : r.trim.start = r.start := by
  rw [trim]
  split <;> rfl

theorem trim_ended (r : Row) : r.trim.ended = r.ended := by
  rw [trim]
  split <;> rfl

theorem trim_stop (r : Row) : r.trim.stop = r.stop := by
  obtain ⟨blanks, hsplit, hb⟩ := r.trim_split
  rw [stop, stop, trim_start, hsplit, run_append, hb.run]

theorem trimItems_items (r : Row) : trimItems r.items = r.trim.items := by
  have hcodes : trimItems r.start.codeItems = r.start.codeItems := trimItems_codes r.start.units_codeItems
  rw [items, items, trim_start, trim_ended, trim_stop, trim]
  by_cases hr : r.ended = true ∧ r.stop.resetItems ≠ []
  · have htrim := trimItems_append_kept (r.start.codeItems ++ r.block) hr.2 (trimItems_codes r.stop.units_resetItems)
    rw [if_pos hr, if_pos hr.1]
    exact htrim
  · have hnil : (if r.ended = true then r.stop.resetItems else []) = [] := by
      split
      · rename_i he
        exact not_not.mp fun hne => hr ⟨he, hne⟩
      · rfl
    rw [if_neg hr, hnil, append_nil, append_nil, trimItems_append hcodes]

theorem Ok.trim (h : r.Ok) : r.trim.Ok := by
  obtain ⟨blanks, hsplit, -⟩ := r.trim_split
  refine ⟨by rw [trim_start]; exact h.start, ?_⟩
  have hb := h.block
  rw [hsplit] at hb
  exact (closed_append.mp hb).1

theorem Ok.trimEnd_text (h : r.Ok) : trimEnd r.text = r.trim.text := by
  rw [text, trimEnd_render h.closed, trimItems_items, text]

end Row

/-! ### Rows that hold a text -/

/-- Rows that hold items in order, from one tracker to another: what they leave out are blanks after a row. -/
inductive Laid (σ : AnsiCodeTracker) : List Row → List Item → AnsiCodeTracker → Prop
  | start : Laid σ [] [] σ
  | row {rows : List Row} {items blanks : List Item} {r : Row} :
    Laid σ rows items r.start → Blanks blanks → Laid σ (rows ++ [r]) (items ++ r.block ++ blanks) r.stop

variable {σ τ : AnsiCodeTracker} {rows : List Row} {items : List Item}

theorem Laid.ok (h : Laid σ rows items τ) (hσ : σ.Ok) (hc : Closed items) : (∀ r ∈ rows, r.Ok) ∧ τ.Ok := by
  induction h with
  | start =>
    refine ⟨?_, hσ⟩
    intro r hr
    cases hr
  | @row rows items blanks r _ _ ih =>
    obtain ⟨hitems, -⟩ := closed_append.mp hc
    obtain ⟨hitems, hblock⟩ := closed_append.mp hitems
    obtain ⟨hrows, hstart⟩ := ih hitems
    refine ⟨?_, hstart.run hblock⟩
    intro r' hr'
    rcases mem_append.mp hr' with hr' | hr'
    · exact hrows r' hr'
    · rw [mem_singleton.mp hr']
      exact ⟨hstart, hblock⟩

theorem Laid.trim (h : Laid σ rows items τ) : Laid σ (rows.map Row.trim) items τ := by
  induction h with
  | start => exact .start
  | @row rows items blanks r _ hb ih =>
    obtain ⟨more, hsplit, hmore⟩ := r.trim_split
    rw [← r.trim_start] at ih
    have hrow := Laid.row ih (hmore.append hb)
    rw [Row.trim_stop] at hrow
    have heq : items ++ r.trim.block ++ (more ++ blanks) = items ++ r.block ++ blanks := by
      have := congrArg (fun block => items ++ block ++ blanks) hsplit
      simp only [append_assoc] at this ⊢
      exact this.symm
    rw [map_append]
    exact heq ▸ hrow

theorem Laid.trimEnd_texts (h : Laid σ rows items τ) (hσ : σ.Ok) (hc : Closed items) :
    (rows.map Row.text).map trimEnd = (rows.map Row.trim).map Row.text := by
  have hrows := (h.ok hσ hc).1
  rw [map_map, map_map]
  refine map_congr_left ?_
  intro r hr
  rw [Function.comp_apply, Function.comp_apply]
  exact (hrows r hr).trimEnd_text

end Tui
end RePrime
