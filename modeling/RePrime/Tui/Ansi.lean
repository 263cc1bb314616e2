import Mathlib.Data.List.Flatten
import RePrime.Lib.JsText
import Mathlib.Algebra.GroupWithZero.Nat

/-!
# RePrime.Tui.Ansi

Escape sequences in terminal text (`utils.ts`): where one ends, the text as a list of sequences and units, and the
tracker of the styles that are active.

* `extractAnsi`: the length of the sequence a string starts with. `scan`: a string as its items.
* `AnsiCodeTracker`: the active SGR attributes and the open hyperlink.
* `scan_render`: what is put together from complete sequences and other units is taken apart again the same.
-/

namespace RePrime
namespace Tui

open List Option
open JsText (ofAscii isSpace)

abbrev esc : UInt16 := 0x1b
abbrev bel : UInt16 := 0x07
abbrev backslash : UInt16 := 0x5c
abbrev semicolon : UInt16 := 0x3b

/-! ### Sequences -/

/-- The rest of a CSI sequence: parameter bytes, intermediate bytes, one final byte. -/
def csiLength : Bool → JsString → Option Nat
  | _, [] => none
  | intermediate, b :: rest =>
    if 0x30 ≤ b ∧ b ≤ 0x3f ∧ intermediate = false then (csiLength false rest).map (· + 1)
    else if 0x20 ≤ b ∧ b ≤ 0x2f then (csiLength true rest).map (· + 1)
    else if 0x40 ≤ b ∧ b ≤ 0x7e then some 1
    else none

/-- The rest of a control string, up to BEL or `ESC \`. -/
def controlStringLength (allowBel : Bool) : JsString → Option Nat
  | [] => none
  | b :: rest =>
    if allowBel = true ∧ b = bel then some 1
    else if b = esc ∧ rest.head? = some backslash then some 2
    else (controlStringLength allowBel rest).map (· + 1)

/-- `extractAnsiCode` at the start of a string: the length of the sequence there. -/
def extractAnsi : JsString → Option Nat
  | e :: next :: rest =>
    if e ≠ esc then none
    else if next = 0x5b then (csiLength false rest).map (· + 2)
    else if next = 0x5d ∨ next = 0x5f then (controlStringLength true rest).map (· + 2)
    else if next = 0x50 ∨ next = 0x5e ∨ next = 0x58 then (controlStringLength false rest).map (· + 2)
    else none
  | _ => none

inductive Item where
  | code (s : JsString)
  | unit (c : UInt16)
deriving DecidableEq

def scanFrom : Nat → JsString → List Item
  | 0, _ => []
  | _, [] => []
  | fuel + 1, c :: s =>
    match extractAnsi (c :: s) with
    | some n => .code ((c :: s).take n) :: scanFrom fuel ((c :: s).drop n)
    | none => .unit c :: scanFrom fuel s

/-- The loop `while (i < text.length)` that takes a sequence where there is one, else a unit. -/
def scan (s : JsString) : List Item := scanFrom s.length s

def Item.text : Item → JsString
  | code s => s
  | unit c => [c]

def render (items : List Item) : JsString := items.flatMap Item.text

/-- The units outside the sequences. -/
def units (items : List Item) : JsString :=
  items.filterMap fun
    | .code _ => none
    | .unit c => some c

/-! ### The tracker -/

structure Hyperlink where
  params : JsString
  url : JsString
  /-- Terminated by BEL, else by `ESC \`. -/
  byBel : Bool
deriving DecidableEq

def Hyperlink.terminator (byBel : Bool) : JsString := if byBel then [bel] else [esc, backslash]

/-- `"\x1b]8;"`. -/
def osc8 : JsString := [esc, 0x5d, 0x38, semicolon]

/-- `parseOsc8Hyperlink`: `none` when the sequence is none, `some none` when it closes the link. -/
def parseOsc8Hyperlink (code : JsString) : Option (Option Hyperlink) :=
  if osc8 <+: code then
    let byBel : Bool := code.getLast? = some bel
    let body := (code.drop 4).take ((code.drop 4).length - (Hyperlink.terminator byBel).length)
    (JsText.indexOf [semicolon] body).map fun i =>
      if body.drop (i + 1) = [] then none
      else some { params := body.take i, url := body.drop (i + 1), byBel := byBel }
  else none

def Hyperlink.format (link : Hyperlink) : JsString :=
  osc8 ++ link.params ++ [semicolon] ++ link.url ++ terminator link.byBel

def formatOsc8Close (byBel : Bool) : JsString := osc8 ++ [semicolon] ++ Hyperlink.terminator byBel

structure AnsiCodeTracker where
  bold : Bool
  dim : Bool
  italic : Bool
  underline : Bool
  blink : Bool
  inverse : Bool
  hidden : Bool
  strikethrough : Bool
  fgColor : Option JsString
  bgColor : Option JsString
  activeHyperlink : Option Hyperlink
deriving DecidableEq

/-- `s.split(sep)`. -/
def splitOn (sep : UInt16) : JsString → List JsString
  | [] => [[]]
  | c :: s =>
    if c = sep then [] :: splitOn sep s
    else
      match splitOn sep s with
      | [] => [[c]]
      | part :: parts => (c :: part) :: parts

theorem splitOn_ne_nil (sep : UInt16) (s : JsString) : splitOn sep s ≠ [] := by
  cases s with
  | nil => exact cons_ne_nil _ _
  | cons c s =>
    rw [splitOn]
    split
    · exact cons_ne_nil _ _
    · split
      · exact cons_ne_nil _ _
      · exact cons_ne_nil _ _

def join (parts : List JsString) : JsString := List.intercalate [semicolon] parts

/-- `Number.parseInt` of digits, none when there are none. -/
def parseInt (s : JsString) : Option Nat :=
  if s = [] then none else some (s.foldl (fun n c => 10 * n + (c.toNat - 48)) 0)

/-- The color that follows a 38 or a 48, as the text to repeat, and the parameters it takes. -/
def colorCode (part : JsString) : List JsString → Option (JsString × Nat)
  | mode :: a :: rest =>
    if mode = ofAscii "5" then some (join [part, mode, a], 2)
    else if mode = ofAscii "2" then
      match rest with
      | b :: c :: _ => some (join [part, mode, a, b, c], 4)
      | _ => none
    else none
  | _ => none

namespace AnsiCodeTracker

def fresh : AnsiCodeTracker where
  bold := false
  dim := false
  italic := false
  underline := false
  blink := false
  inverse := false
  hidden := false
  strikethrough := false
  fgColor := none
  bgColor := none
  activeHyperlink := none

/-- A reset of the attributes leaves the hyperlink open. -/
def reset (t : AnsiCodeTracker) : AnsiCodeTracker := { fresh with activeHyperlink := t.activeHyperlink }

/-- The standard codes. -/
def standard (t : AnsiCodeTracker) (code : Nat) : AnsiCodeTracker :=
  match code with
  | 0 => t.reset
  | 1 => { t with bold := true }
  | 2 => { t with dim := true }
  | 3 => { t with italic := true }
  | 4 => { t with underline := true }
  | 5 => { t with blink := true }
  | 7 => { t with inverse := true }
  | 8 => { t with hidden := true }
  | 9 => { t with strikethrough := true }
  | 21 => { t with bold := false }
  | 22 => { t with bold := false, dim := false }
  | 23 => { t with italic := false }
  | 24 => { t with underline := false }
  | 25 => { t with blink := false }
  | 27 => { t with inverse := false }
  | 28 => { t with hidden := false }
  | 29 => { t with strikethrough := false }
  | 39 => { t with fgColor := none }
  | 49 => { t with bgColor := none }
  | code =>
    if (30 ≤ code ∧ code ≤ 37) ∨ (90 ≤ code ∧ code ≤ 97) then { t with fgColor := some (ofAscii (toString code)) }
    else if (40 ≤ code ∧ code ≤ 47) ∨ (100 ≤ code ∧ code ≤ 107) then
      { t with bgColor := some (ofAscii (toString code)) }
    else t

/-- The loop over the parameters; `skip` of them belong to a color before. -/
def processParts (t : AnsiCodeTracker) : Nat → List JsString → AnsiCodeTracker
  | _, [] => t
  | skip + 1, _ :: rest => processParts t skip rest
  | 0, part :: rest =>
    match parseInt part with
    | none => processParts t 0 rest
    | some code =>
      if code = 38 then
        match colorCode part rest with
        | some (color, taken) => processParts { t with fgColor := some color } taken rest
        | none => processParts (t.standard code) 0 rest
      else if code = 48 then
        match colorCode part rest with
        | some (color, taken) => processParts { t with bgColor := some color } taken rest
        | none => processParts (t.standard code) 0 rest
      else processParts (t.standard code) 0 rest

def isParam (c : UInt16) : Bool := (0x30 ≤ c && c ≤ 0x39) || c == semicolon

/-- `match(/\x1b\[([\d;]*)m/)`: the parameters. -/
def sgrParams : JsString → Option JsString
  | [] => none
  | c :: s =>
    if c = esc ∧ s.head? = some 0x5b ∧ ((s.drop 1).dropWhile isParam).head? = some 0x6d then
      some ((s.drop 1).takeWhile isParam)
    else sgrParams s

def process (t : AnsiCodeTracker) (code : JsString) : AnsiCodeTracker :=
  match parseOsc8Hyperlink code with
  | some link => { t with activeHyperlink := link }
  | none =>
    if code.getLast? ≠ some 0x6d then t
    else
      match sgrParams code with
      | none => t
      | some params =>
        if params = [] ∨ params = ofAscii "0" then t.reset else t.processParts 0 (splitOn semicolon params)

/-- The codes of the attributes that are on. -/
def codes (t : AnsiCodeTracker) : List JsString :=
  (if t.bold then [ofAscii "1"] else []) ++ (if t.dim then [ofAscii "2"] else []) ++
    (if t.italic then [ofAscii "3"] else []) ++ (if t.underline then [ofAscii "4"] else []) ++
    (if t.blink then [ofAscii "5"] else []) ++ (if t.inverse then [ofAscii "7"] else []) ++
    (if t.hidden then [ofAscii "8"] else []) ++ (if t.strikethrough then [ofAscii "9"] else []) ++
    t.fgColor.toList ++ t.bgColor.toList

def sgr (params : JsString) : JsString := [esc, 0x5b] ++ params ++ [0x6d]

def getActiveCodes (t : AnsiCodeTracker) : JsString :=
  (if t.codes = [] then [] else sgr (join t.codes)) ++
    match t.activeHyperlink with
    | some link => link.format
    | none => []

def getLineEndReset (t : AnsiCodeTracker) : JsString :=
  (if t.underline then sgr (ofAscii "24") else []) ++
    match t.activeHyperlink with
    | some link => formatOsc8Close link.byBel
    | none => []

/-- One item: a sequence is processed. -/
def next (t : AnsiCodeTracker) : Item → AnsiCodeTracker
  | .code s => t.process s
  | .unit _ => t

def run (t : AnsiCodeTracker) (items : List Item) : AnsiCodeTracker := items.foldl next t

/-- `updateTrackerFromText`. -/
def update (t : AnsiCodeTracker) (text : JsString) : AnsiCodeTracker := t.run (scan text)

@[simp] theorem run_nil (t : AnsiCodeTracker) : t.run [] = t := rfl

@[simp] theorem run_cons (t : AnsiCodeTracker) (x : Item) (items : List Item) :
    t.run (x :: items) = (t.next x).run items := rfl

@[simp] theorem run_units (t : AnsiCodeTracker) (s : JsString) : t.run (s.map .unit) = t := by
  induction s with
  | nil => rfl
  | cons c s ih => exact ih

theorem run_append (t : AnsiCodeTracker) (a b : List Item) : t.run (a ++ b) = (t.run a).run b :=
  foldl_append

end AnsiCodeTracker

/-! ### Complete sequences -/

variable {s : JsString} {n : Nat}

theorem csiLength_take {i : Bool} (h : csiLength i s = some n) :
    n ≤ s.length ∧ ∀ t, csiLength i (s.take n ++ t) = some n := by
  induction s generalizing i n with
  | nil => cases h
  | cons b rest ih =>
    simp only [csiLength] at h
    split at h
    · rename_i hb
      obtain ⟨m, hm, rfl⟩ := map_eq_some_iff.mp h
      obtain ⟨hle, htake⟩ := ih hm
      refine ⟨Nat.succ_le_succ hle, ?_⟩
      intro t
      rw [take_succ_cons, cons_append, csiLength, if_pos hb, htake]
      rfl
    · rename_i hb
      split at h
      · rename_i hb'
        obtain ⟨m, hm, rfl⟩ := map_eq_some_iff.mp h
        obtain ⟨hle, htake⟩ := ih hm
        refine ⟨Nat.succ_le_succ hle, ?_⟩
        intro t
        rw [take_succ_cons, cons_append, csiLength, if_neg hb, if_pos hb', htake]
        rfl
      · rename_i hb'
        split at h
        · rename_i hb''
          cases h
          refine ⟨Nat.succ_le_succ (Nat.zero_le _), ?_⟩
          intro t
          rw [take_succ_cons, cons_append, csiLength, if_neg hb, if_neg hb', if_pos hb'']
        · cases h

theorem controlStringLength_take {a : Bool} (h : controlStringLength a s = some n) :
    n ≤ s.length ∧ ∀ t, controlStringLength a (s.take n ++ t) = some n := by
  induction s generalizing n with
  | nil => cases h
  | cons b rest ih =>
    simp only [controlStringLength] at h
    split at h
    · rename_i hb
      cases h
      refine ⟨Nat.succ_le_succ (Nat.zero_le _), ?_⟩
      intro t
      rw [take_succ_cons, cons_append, controlStringLength, if_pos hb]
    · rename_i hb
      split at h
      · rename_i hb'
        cases h
        obtain ⟨c, rest', rfl⟩ : ∃ c rest', rest = c :: rest' := by
          cases rest with
          | nil => cases hb'.2
          | cons c rest' => exact ⟨c, rest', rfl⟩
        refine ⟨by simp, ?_⟩
        intro t
        rw [take_succ_cons, take_succ_cons, cons_append, controlStringLength, if_neg hb, if_pos]
        exact ⟨hb'.1, hb'.2⟩
      · rename_i hb'
        obtain ⟨m, hm, rfl⟩ := map_eq_some_iff.mp h
        obtain ⟨hle, htake⟩ := ih hm
        refine ⟨Nat.succ_le_succ hle, ?_⟩
        intro t
        rw [take_succ_cons, cons_append, controlStringLength, if_neg hb, if_neg, htake]
        · rfl
        · -- The head of what is taken is the head of the rest, unless nothing is taken.
          rintro ⟨hb, hh⟩
          cases rest with
          | nil => cases hm
          | cons c rest' =>
            cases m with
            | zero =>
              have := htake []
              simp [controlStringLength] at this
            | succ m => exact hb' ⟨hb, hh⟩

/-- A sequence that `extractAnsi` takes as a whole. -/
def Complete (code : JsString) : Prop := extractAnsi code = some code.length

theorem extractAnsi_take (h : extractAnsi s = some n) :
    2 ≤ n ∧ n ≤ s.length ∧ s.head? = some esc ∧ ∀ t, extractAnsi (s.take n ++ t) = some n := by
  match s, h with
  | e :: next :: rest, h =>
    have hkey : ∀ {f : JsString → Option Nat}, (∀ m, f rest = some m → m ≤ rest.length ∧
        ∀ t, f (rest.take m ++ t) = some m) → (f rest).map (· + 2) = some n →
        2 ≤ n ∧ n ≤ (e :: next :: rest).length ∧
          ∀ t, ∃ r, (e :: next :: rest).take n ++ t = e :: next :: r ∧ (f r).map (· + 2) = some n := by
      intro f hf hn
      obtain ⟨m, hm, rfl⟩ := map_eq_some_iff.mp hn
      obtain ⟨hle, htake⟩ := hf m hm
      refine ⟨by omega, by simp only [length_cons]; omega, ?_⟩
      intro t
      refine ⟨rest.take m ++ t, by simp, ?_⟩
      rw [htake]
      rfl
    simp only [extractAnsi] at h
    split at h
    · cases h
    · rename_i he
      have he : e = esc := not_not.mp he
      subst he
      split at h
      · rename_i hn
        obtain ⟨h2, hle, hr⟩ := hkey (fun m hm => csiLength_take hm) h
        refine ⟨h2, hle, rfl, ?_⟩
        intro t
        obtain ⟨r, hr, hf⟩ := hr t
        rw [hr, extractAnsi, if_neg (by simp), if_pos hn, hf]
      · rename_i hn
        split at h
        · rename_i ho
          obtain ⟨h2, hle, hr⟩ := hkey (fun m hm => controlStringLength_take hm) h
          refine ⟨h2, hle, rfl, ?_⟩
          intro t
          obtain ⟨r, hr, hf⟩ := hr t
          rw [hr, extractAnsi, if_neg (by simp), if_neg hn, if_pos ho, hf]
        · rename_i ho
          split at h
          · rename_i hp
            obtain ⟨h2, hle, hr⟩ := hkey (fun m hm => controlStringLength_take hm) h
            refine ⟨h2, hle, rfl, ?_⟩
            intro t
            obtain ⟨r, hr, hf⟩ := hr t
            rw [hr, extractAnsi, if_neg (by simp), if_neg hn, if_neg ho, if_pos hp, hf]
          · cases h

theorem Complete.extract {code : JsString} (h : Complete code) (t : JsString) :
    extractAnsi (code ++ t) = some code.length := by
  have htake := (extractAnsi_take h).2.2.2 t
  rwa [take_length] at htake

theorem complete_take (h : extractAnsi s = some n) : Complete (s.take n) := by
  obtain ⟨-, hle, -, htake⟩ := extractAnsi_take h
  have := htake []
  rw [append_nil] at this
  rw [Complete, this, length_take, Nat.min_eq_left hle]

/-! ### How a sequence ends -/

theorem csiLength_last {i : Bool} (h : csiLength i s = some s.length) :
    esc ∉ s ∧ ∃ init c, s = init ++ [c] ∧ 0x40 ≤ c ∧ c ≤ 0x7e := by
  induction s generalizing i with
  | nil => cases h
  | cons b rest ih =>
    have hstep : ∀ {j : Bool}, (csiLength j rest).map (· + 1) = some (b :: rest).length → b ≠ esc →
        esc ∉ b :: rest ∧ ∃ init c, b :: rest = init ++ [c] ∧ 0x40 ≤ c ∧ c ≤ 0x7e := by
      intro j hj hb
      obtain ⟨m, hm, hlen⟩ := map_eq_some_iff.mp hj
      have hm' : csiLength j rest = some rest.length := by
        rw [hm]
        congr 1
        exact Nat.succ.inj hlen
      obtain ⟨hesc, init, c, hrest, hc⟩ := ih hm'
      refine ⟨?_, b :: init, c, by rw [hrest, cons_append], hc⟩
      rintro (_ | ⟨_, hmem⟩)
      · exact hb rfl
      · exact hesc hmem
    simp only [csiLength] at h
    split at h
    · rename_i hb
      refine hstep h ?_
      rintro rfl
      exact absurd hb.1 (by decide)
    · split at h
      · rename_i hb
        refine hstep h ?_
        rintro rfl
        exact absurd hb.1 (by decide)
      · split at h
        · rename_i hfinal
          have hlen : rest = [] := length_eq_zero_iff.mp (Nat.succ.inj (Option.some.inj h)).symm
          subst hlen
          refine ⟨?_, [], b, rfl, hfinal⟩
          rintro (_ | ⟨_, hmem⟩)
          · exact absurd hfinal.1 (by decide)
          · cases hmem
        · cases h

theorem controlStringLength_last {a : Bool} (h : controlStringLength a s = some s.length) :
    ∃ init c, s = init ++ [c] ∧ (c = bel ∨ c = backslash) := by
  induction s with
  | nil => cases h
  | cons b rest ih =>
    simp only [controlStringLength] at h
    split at h
    · rename_i hb
      have hlen : rest = [] := length_eq_zero_iff.mp (Nat.succ.inj (Option.some.inj h)).symm
      subst hlen
      exact ⟨[], b, rfl, .inl hb.2⟩
    · split at h
      · rename_i hb
        obtain ⟨c, rest', rfl⟩ : ∃ c rest', rest = c :: rest' := by
          cases rest with
          | nil => cases hb.2
          | cons c rest' => exact ⟨c, rest', rfl⟩
        have hlen : rest' = [] := length_eq_zero_iff.mp (Nat.succ.inj (Nat.succ.inj (Option.some.inj h))).symm
        subst hlen
        exact ⟨[b], c, rfl, .inr (Option.some.inj hb.2)⟩
      · obtain ⟨m, hm, hlen⟩ := map_eq_some_iff.mp h
        have hm' : controlStringLength a rest = some rest.length := by
          rw [hm]
          congr 1
          exact Nat.succ.inj hlen
        obtain ⟨init, c, hrest, hc⟩ := ih hm'
        exact ⟨b :: init, c, by rw [hrest, cons_append], hc⟩

/-- A CSI sequence has no ESC but its first unit, and a control string ends in BEL or a backslash. -/
theorem Complete.ends {code : JsString} (h : Complete code) : ∃ c, code.getLast? = some c ∧
      ((∃ rest, code = esc :: 0x5b :: rest ∧ esc ∉ rest ∧ c ∈ rest ∧ 0x40 ≤ c ∧ c ≤ 0x7e) ∨
        c = bel ∨ c = backslash) := by
  match code, h with
  | e :: next :: rest, h =>
    have hinner : ∀ {f : JsString → Option Nat}, (f rest).map (· + 2) = some (e :: next :: rest).length →
        f rest = some rest.length := by
      intro f hf
      obtain ⟨m, hm, hlen⟩ := map_eq_some_iff.mp hf
      rw [hm]
      congr 1
      exact Nat.succ.inj (Nat.succ.inj hlen)
    have hlast : ∀ init c, rest = init ++ [c] → (e :: next :: rest).getLast? = some c := by
      rintro init c rfl
      exact getLast?_concat (l := e :: next :: init)
    simp only [Complete, extractAnsi] at h
    split at h
    · cases h
    · rename_i he
      split at h
      · rename_i hn
        obtain ⟨hesc, init, c, hrest, hc⟩ := csiLength_last (hinner h)
        refine ⟨c, hlast init c hrest, .inl ⟨rest, by rw [not_not.mp he, hn], hesc, ?_, hc⟩⟩
        rw [hrest]
        exact mem_append_right _ mem_cons_self
      · split at h
        · obtain ⟨init, c, hrest, hc⟩ := controlStringLength_last (hinner h)
          exact ⟨c, hlast init c hrest, .inr hc⟩
        · split at h
          · obtain ⟨init, c, hrest, hc⟩ := controlStringLength_last (hinner h)
            exact ⟨c, hlast init c hrest, .inr hc⟩
          · cases h

/-! ### Text and items -/

/-- Each sequence is complete and no other unit is an ESC. -/
def Item.Ok : Item → Prop
  | code s => Complete s
  | unit c => c ≠ esc

def Closed (items : List Item) : Prop := ∀ x ∈ items, x.Ok

theorem Closed.append {a b : List Item} (ha : Closed a) (hb : Closed b) : Closed (a ++ b) := by
  intro x hx
  exact (mem_append.mp hx).elim (ha x) (hb x)

theorem closed_append {a b : List Item} : Closed (a ++ b) ↔ Closed a ∧ Closed b := by
  constructor
  · intro h
    exact ⟨fun x hx => h x (mem_append_left _ hx), fun x hx => h x (mem_append_right _ hx)⟩
  · intro h
    exact h.1.append h.2

@[simp] theorem render_nil : render [] = [] := rfl

@[simp] theorem render_append (a b : List Item) : render (a ++ b) = render a ++ render b := flatMap_append

theorem render_cons (x : Item) (items : List Item) : render (x :: items) = x.text ++ render items := rfl

theorem Item.Ok.length_pos {x : Item} (h : x.Ok) : 0 < x.text.length := by
  cases x with
  | code s =>
    have := (extractAnsi_take h).1
    simp only [Item.text]
    omega
  | unit c => exact Nat.one_pos

/-- What a text is scanned into: each sequence is complete, and none starts at another unit. -/
def Scanned : List Item → Prop
  | [] => True
  | .code s :: rest => Complete s ∧ Scanned rest
  | .unit c :: rest => extractAnsi (c :: render rest) = none ∧ Scanned rest

theorem Closed.scanned {items : List Item} (h : Closed items) : Scanned items := by
  induction items with
  | nil => trivial
  | cons x items ih =>
    have hx := h x mem_cons_self
    have hrest : Scanned items := ih fun y hy => h y (mem_cons_of_mem _ hy)
    cases x with
    | code s => exact ⟨hx, hrest⟩
    | unit c =>
      refine ⟨?_, hrest⟩
      cases hr : render items with
      | nil => rfl
      | cons d t =>
        have hc : c ≠ esc := hx
        rw [extractAnsi, if_pos hc]

theorem scanFrom_render {items : List Item} (h : Scanned items) {fuel : Nat}
    (hf : (render items).length ≤ fuel) : scanFrom fuel (render items) = items := by
  induction items generalizing fuel with
  | nil => cases fuel <;> rfl
  | cons x items ih =>
    rw [render_cons, length_append] at hf
    rw [render_cons]
    cases x with
    | code s =>
      have hpos : 0 < s.length := Nat.lt_of_lt_of_le (by decide) (extractAnsi_take h.1).1
      obtain ⟨fuel, rfl⟩ : ∃ m, fuel = m + 1 := ⟨fuel - 1, by simp only [Item.text] at hf; omega⟩
      have hs : s ++ render items ≠ [] := by
        intro he
        rw [append_eq_nil_iff] at he
        simp [he.1] at hpos
      have hex := Complete.extract h.1 (render items)
      simp only [Item.text] at hf ⊢
      obtain ⟨c, t, hct⟩ := exists_cons_of_ne_nil hs
      rw [hct] at hex
      rw [hct, scanFrom, hex]
      simp only
      rw [← hct, take_left, drop_left, ih h.2 (by omega)]
    | unit c =>
      obtain ⟨fuel, rfl⟩ : ∃ m, fuel = m + 1 := ⟨fuel - 1, by simp only [Item.text, length_singleton] at hf; omega⟩
      simp only [Item.text, length_singleton, cons_append, nil_append] at hf ⊢
      rw [scanFrom, h.1]
      simp only
      rw [ih h.2 (by omega)]

theorem scan_of_scanned {items : List Item} (h : Scanned items) : scan (render items) = items :=
  scanFrom_render h (Nat.le_refl _)

theorem scan_render {items : List Item} (h : Closed items) : scan (render items) = items := scan_of_scanned h.scanned

theorem render_scanFrom {fuel : Nat} (hf : s.length ≤ fuel) : render (scanFrom fuel s) = s := by
  induction fuel generalizing s with
  | zero =>
    rw [length_eq_zero_iff.mp (Nat.le_zero.mp hf)]
    rfl
  | succ fuel ih =>
    cases s with
    | nil => rfl
    | cons c s =>
      rw [length_cons] at hf
      rw [scanFrom]
      split
      · rename_i n hn
        obtain ⟨h2, -⟩ := extractAnsi_take hn
        rw [render_cons, ih (by simp only [length_drop, length_cons]; omega)]
        exact take_append_drop n (c :: s)
      · rw [render_cons, ih (by omega)]
        rfl

theorem render_scan (s : JsString) : render (scan s) = s := render_scanFrom (Nat.le_refl _)

theorem scanned_scanFrom {fuel : Nat} (hf : s.length ≤ fuel) : Scanned (scanFrom fuel s) := by
  induction fuel generalizing s with
  | zero => trivial
  | succ fuel ih =>
    cases s with
    | nil => trivial
    | cons c s =>
      rw [length_cons] at hf
      rw [scanFrom]
      split
      · rename_i n hn
        obtain ⟨h2, -⟩ := extractAnsi_take hn
        exact ⟨complete_take hn, ih (by simp only [length_drop, length_cons]; omega)⟩
      · rename_i hnone
        refine ⟨?_, ih (by omega)⟩
        rw [render_scanFrom (by omega), hnone]

theorem Scanned.right {a b : List Item} (h : Scanned (a ++ b)) : Scanned b := by
  induction a with
  | nil => exact h
  | cons x a ih =>
    cases x with
    | code s => exact ih h.2
    | unit c => exact ih h.2

/-- A sequence that starts in a text is there in a longer text, too. -/
theorem Scanned.left {a b : List Item} (h : Scanned (a ++ b)) : Scanned a := by
  induction a with
  | nil => trivial
  | cons x a ih =>
    cases x with
    | code s => exact ⟨h.1, ih h.2⟩
    | unit c =>
      refine ⟨?_, ih h.2⟩
      cases hex : extractAnsi (c :: render a) with
      | none => rfl
      | some n =>
        have hlonger := (complete_take hex).extract ((c :: render a).drop n ++ render b)
        rw [← append_assoc, take_append_drop, cons_append, ← render_append] at hlonger
        cases hlonger.symm.trans h.1

theorem complete_of_mem_scanFrom {fuel : Nat} {code : JsString} (h : .code code ∈ scanFrom fuel s) :
    Complete code := by
  induction fuel generalizing s with
  | zero => cases h
  | succ fuel ih =>
    cases s with
    | nil => cases h
    | cons c s =>
      rw [scanFrom] at h
      split at h
      · rename_i n hn
        rcases mem_cons.mp h with h | h
        · cases h
          exact complete_take hn
        · exact ih h
      · rcases mem_cons.mp h with h | h
        · cases h
        · exact ih h

/-- A text in which every ESC starts a complete sequence. -/
def WellFormed (s : JsString) : Prop := ∀ c, .unit c ∈ scan s → c ≠ esc

theorem WellFormed.closed {s : JsString} (h : WellFormed s) : Closed (scan s) := by
  intro x hx
  cases x with
  | code code => exact complete_of_mem_scanFrom hx
  | unit c => exact h c hx

end Tui
end RePrime
