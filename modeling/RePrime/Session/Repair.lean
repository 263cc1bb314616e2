import Mathlib.Data.List.DropRight
import RePrime.Lib.JsonLines
import RePrime.Session.Store

/-!
# RePrime.Session.Repair

What `repairJsonlDamage` leaves of a file, whatever its bytes are.

* `step_kept`: what a step keeps of a line.
* `repairScan_kept`: so for all lines, in their order.
* `repair_keeps`: the file after a repair, and after a second one.
* `repair_keeps_malformed`: a malformed line that is not the last one stays.
-/

namespace RePrime
namespace Session

open List
open RepairScan
open Lines
open Utf8

/-- The file after a repair that writes what it wants to. -/
def repaired (bytes : Bytes) : Bytes := (repairedContent bytes).getD bytes

/-- The lines of a file as texts. -/
def texts (bytes : Bytes) : List (List Char) := (lines 10 bytes).map decode

def parsesText (text : List Char) : Bool := (Json.parse text).isSome

def stripNuls (text : List Char) : List Char := text.dropWhile fun c => c == '\x00'

def stripLine (line : Bytes) : Bytes := line.dropWhile fun b => b == 0

/-- What stays of a line: the line itself, when it starts with no NUL, is not torn and, as the last one, is blank or
parses; of every other line what is behind its leading NULs, if that parses. -/
def survivor (isTorn isLast : Bool) (text : List Char) : List (List Char) :=
  if text.head? ≠ some '\x00' ∧ isTorn = false ∧ (isLast = true → text = [] ∨ parsesText text = true) then [text]
  else if parsesText (stripNuls text) then [stripNuls text]
  else []

/-- What stays of the lines. Only the last one can be torn, and is when no newline ends the file. -/
def survivors (terminated : Bool) : List (List Char) → List (List Char)
  | [] => []
  | text :: rest => survivor (rest.isEmpty && !terminated) rest.isEmpty text ++ survivors terminated rest

/-! ### Leading NULs -/

theorem parsesText_nul (text : List Char) : parsesText ('\x00' :: text) = false := rfl

theorem decode_nul (line : Bytes) : decode (0 :: line) = '\x00' :: decode line := rfl

theorem head_of_stripLine (line : Bytes) : (stripLine line).head? ≠ some 0 := by
  intro h
  have hhead := head?_dropWhile_not (fun b : UInt8 => b == 0) line
  rw [show (line.dropWhile fun b => b == 0).head? = some 0 from h] at hhead
  simp at hhead

variable {line : Bytes}

theorem head_decode_ne (h : line.head? ≠ some 0) : (decode line).head? ≠ some '\x00' := by
  intro hnul
  obtain ⟨b, hb, hval⟩ := head_decode hnul (by decide)
  rw [show b = 0 from UInt8.toNat_inj.1 hval] at hb
  exact h hb

theorem stripNuls_of_head {text : List Char} (h : text.head? ≠ some '\x00') : stripNuls text = text := by
  cases text with
  | nil => rfl
  | cons c text =>
    have hc : ¬ (c == '\x00') = true := fun hc => h (by rw [beq_iff_eq.1 hc]; rfl)
    exact dropWhile_cons_of_neg hc

theorem stripLine_of_head (h : line.head? ≠ some 0) : stripLine line = line := by
  cases line with
  | nil => rfl
  | cons b line =>
    have hb : ¬ (b == 0) = true := fun hb => h (by rw [beq_iff_eq.1 hb]; rfl)
    exact dropWhile_cons_of_neg hb

theorem decode_stripLine (line : Bytes) : decode (stripLine line) = stripNuls (decode line) := by
  induction line with
  | nil => rfl
  | cons b line ih =>
    by_cases hb : b = 0
    · rw [hb, decode_nul]
      exact ih
    · have hhead : (b :: line).head? ≠ some 0 := by simpa using hb
      rw [stripLine_of_head hhead, stripNuls_of_head (head_decode_ne hhead)]

theorem stripLine_of_length (h : ¬ (stripLine line).length < line.length) : stripLine line = line :=
  (dropWhile_suffix _).eq_of_length_le (Nat.le_of_not_lt h)

theorem isEmpty_of_parses (h : parsesAsJson line = true) : line.isEmpty = false := by
  cases line with
  | nil => cases h
  | cons b line => rfl

/-! ### The scan -/

theorem parsesText_decode (line : Bytes) : parsesText (decode line) = parsesAsJson line := rfl

theorem survivor_of_nul (hnul : line.head? = some 0) (isTorn isLast : Bool) :
    survivor isTorn isLast (decode line) =
      if parsesAsJson (stripLine line) then [decode (stripLine line)] else [] := by
  obtain ⟨rest, rfl⟩ := head?_eq_some_iff.1 hnul
  have hhead : (decode (0 :: rest)).head? = some '\x00' := rfl
  rw [survivor, if_neg (fun h => h.1 hhead), ← decode_stripLine, parsesText_decode]

theorem survivor_torn (hhead : line.head? ≠ some 0) (isLast : Bool) :
    survivor true isLast (decode line) = if parsesAsJson line then [decode line] else [] := by
  rw [survivor, if_neg (by simp), stripNuls_of_head (head_decode_ne hhead), parsesText_decode]

theorem survivor_terminated (hhead : line.head? ≠ some 0) (isLast : Bool) :
    survivor false isLast (decode line) =
      if (isLast && !line.isEmpty && !parsesAsJson line) = true then [] else [decode line] := by
  have hne := head_decode_ne hhead
  rw [survivor, stripNuls_of_head hne, parsesText_decode]
  by_cases hline : line = []
  · rw [hline]
    simp [decode, decodeFrom, DecodeState.init]
  · have hdecode : decode line ≠ [] := fun hnil => hline (decode_eq_nil.1 hnil)
    cases isLast <;> cases parsesAsJson line <;> simp [hne, hline, hdecode]

theorem RepairScan.recover_kept (s : RepairScan) (line : Bytes) :
    (s.recover line).keptLines = s.keptLines ++ if parsesAsJson line then [line] else [] := by
  unfold recover
  cases hp : parsesAsJson line with
  | false =>
    rw [Bool.and_false, if_neg Bool.false_ne_true, if_neg Bool.false_ne_true, append_nil]
  | true =>
    rw [isEmpty_of_parses hp]
    rfl

/-- A step keeps what stays of its line. -/
theorem RepairScan.step_kept (s : RepairScan) (line : Bytes) (terminated isFinal : Bool) :
    ∃ kept, (s.step line terminated isFinal).keptLines = s.keptLines ++ kept ∧
      kept.map decode = survivor (!terminated) isFinal (decode line) ∧ (kept = [] ∨ kept = [stripLine line]) := by
  unfold step
  dsimp only
  split
  · rename_i hnul
    have hhead : line.head? = some 0 := by
      by_contra hne
      rw [show (line.dropWhile fun b => b == 0) = line from stripLine_of_head hne] at hnul
      exact Nat.lt_irrefl _ hnul
    refine ⟨_, s.recover_kept (stripLine line), ?_, ?_⟩
    · rw [survivor_of_nul hhead, apply_ite (map decode)]
      rfl
    · split
      · exact .inr rfl
      · exact .inl rfl
  · rename_i hplain
    have hstrip : stripLine line = line := stripLine_of_length hplain
    have hhead : line.head? ≠ some 0 := hstrip ▸ head_of_stripLine line
    rw [hstrip]
    cases terminated with
    | false =>
      refine ⟨_, s.recover_kept line, ?_, ?_⟩
      · rw [Bool.not_false, survivor_torn hhead, apply_ite (map decode)]
        rfl
      · split
        · exact .inr rfl
        · exact .inl rfl
    | true =>
      rw [Bool.not_true, survivor_terminated hhead, if_neg Bool.false_ne_true]
      split
      · exact ⟨[], (append_nil _).symm, rfl, .inl rfl⟩
      · exact ⟨[line], rfl, rfl, .inr rfl⟩

theorem lines_eq (buffer : Bytes) : lines 10 buffer = (feed 10 [] buffer).1 ++
      if (feed 10 [] buffer).2 = [] then [] else [(feed 10 [] buffer).2] := rfl

theorem repairLines_kept (tail : Bytes) (lines : List Bytes) : ∀ s : RepairScan,
    ∃ kept, (repairLines tail lines s).keptLines = s.keptLines ++ kept ∧
      kept.map decode = survivors tail.isEmpty ((lines ++ if tail = [] then [] else [tail]).map decode) ∧
      kept.Sublist ((lines ++ if tail = [] then [] else [tail]).map stripLine) := by
  induction lines with
  | nil =>
    intro s
    rw [repairLines, nil_append]
    by_cases htail : tail = []
    · rw [htail]
      exact ⟨[], (append_nil _).symm, rfl, List.Sublist.refl _⟩
    · have hempty : tail.isEmpty = false := by simpa using htail
      obtain ⟨kept, hkept, hstays, hcase⟩ := s.step_kept tail false true
      rw [if_neg htail, hempty, if_neg Bool.false_ne_true]
      refine ⟨kept, hkept, hstays.trans (append_nil _).symm, ?_⟩
      obtain rfl | rfl := hcase
      · exact nil_sublist _
      · exact List.Sublist.refl _
  | cons line lines ih =>
    intro s
    obtain ⟨first, hfirst, hstays, hcase⟩ := s.step_kept line true (lines.isEmpty && tail.isEmpty)
    obtain ⟨kept, hkept, hrest, hout⟩ := ih (s.step line true (lines.isEmpty && tail.isEmpty))
    refine ⟨first ++ kept, ?_, ?_, ?_⟩
    · rw [repairLines, hkept, hfirst, append_assoc]
    · -- a line of the list is the last one when nothing follows it, and then it is not torn
      have hlast : ((lines ++ if tail = [] then [] else [tail]).map decode).isEmpty
          = (lines.isEmpty && tail.isEmpty) := by
        cases lines with
        | nil => cases tail <;> rfl
        | cons next lines => rfl
      have htorn : (lines.isEmpty && tail.isEmpty && !tail.isEmpty) = false := by
        cases tail.isEmpty <;> simp
      rw [map_append, hstays, hrest, cons_append, map_cons, survivors, hlast, htorn]
      rfl
    · rw [cons_append, map_cons]
      obtain rfl | rfl := hcase
      · exact hout.cons _
      · exact hout.cons_cons _

/-- Nothing is left over when the bytes end with the separator. -/
theorem isEmpty_tail {parts : List Bytes} {tail : Bytes} (hsep : (10 : UInt8) ∉ tail)
    (h : parts.flatMap (fun part => part ++ [10]) ++ tail ≠ []) :
    tail.isEmpty = ((parts.flatMap (fun part => part ++ [10]) ++ tail).getLast? == some 10) := by
  cases tail with
  | nil =>
    rw [append_nil] at h ⊢
    obtain ⟨front, last, hlast⟩ := (eq_nil_or_concat parts).resolve_left (by rintro rfl; exact h rfl)
    rw [hlast]
    simp
  | cons b tail =>
    rw [getLast?_append_of_ne_nil _ (cons_ne_nil b tail)]
    have hlast : (b :: tail).getLast? ≠ some 10 := fun hlast => hsep (mem_of_getLast? hlast)
    simpa using hlast

/-- The kept lines are what stays of the lines; none is there that was not. -/
theorem repairScan_kept (buffer : Bytes) :
    (repairScan buffer).keptLines.map decode = survivors (buffer.getLast? == some 10) (texts buffer) ∧
      (repairScan buffer).keptLines.Sublist ((lines 10 buffer).map stripLine) := by
  obtain ⟨kept, hkept, hstays, hout⟩ := repairLines_kept (feed 10 [] buffer).2 (feed 10 [] buffer).1
    { keptLines := [], dirty := false }
  rw [repairScan, hkept, nil_append, texts, lines_eq]
  refine ⟨?_, hout⟩
  by_cases h : buffer = []
  · rw [h] at hstays ⊢
    exact hstays
  · have hall := @Lines.flatMap_feed _ _ 10 buffer []
    rw [nil_append] at hall
    have htail := isEmpty_tail (@Lines.sep_not_mem_feed _ _ 10 buffer [] (by simp)).2 (hall.symm ▸ h)
    rw [hall] at htail
    rw [← htail]
    exact hstays

theorem filter_survivor {isTorn isLast : Bool} {text : List Char} (h : parsesText text = true) :
    survivor isTorn isLast text = [text] := by
  have hhead : text.head? ≠ some '\x00' := by
    intro hnul
    obtain ⟨rest, rfl⟩ := head?_eq_some_iff.1 hnul
    rw [parsesText_nul] at h
    cases h
  rw [survivor, stripNuls_of_head hhead, h, if_pos rfl]
  split <;> rfl

/-- What parses stays. -/
theorem filter_sublist_survivors (terminated : Bool) (texts : List (List Char)) :
    (texts.filter parsesText).Sublist (survivors terminated texts) := by
  induction texts with
  | nil => exact List.Sublist.refl _
  | cons text rest ih =>
    rw [survivors, filter_cons]
    split
    · rename_i hp
      rw [filter_survivor hp]
      exact ih.cons_cons text
    · exact ih.trans (sublist_append_right _ _)

/-! ### What is written -/

/-- A kept line as it is written. -/
def rewritten (line : Bytes) : Bytes := encode (decode line)

theorem decode_rewritten (line : Bytes) : decode (rewritten line) = decode line := decode_encode _

theorem newline_not_mem_rewritten (h : (10 : UInt8) ∉ line) : (10 : UInt8) ∉ rewritten line := by
  intro hmem
  obtain ⟨c, hc, hval⟩ := ascii_mem_encode (by decide) hmem
  obtain ⟨b, hb, hbc⟩ := ascii_mem_decode hc (by rw [hval]; decide)
  rw [show b = 10 from UInt8.toNat_inj.1 (hbc.trans hval)] at hb
  exact h hb

variable {buffer : Bytes}

theorem newline_not_mem_line (h : line ∈ lines 10 buffer) : (10 : UInt8) ∉ line := by
  obtain ⟨hparts, hlast⟩ := @Lines.sep_not_mem_feed _ _ 10 buffer [] (by simp)
  rw [lines_eq] at h
  obtain h | h := mem_append.1 h
  · exact hparts line h
  · split at h
    · cases h
    · rw [mem_singleton.1 h]
      exact hlast

theorem mem_keptLines (h : line ∈ (repairScan buffer).keptLines) : (10 : UInt8) ∉ line ∧ line.head? ≠ some 0 := by
  obtain ⟨whole, hwhole, rfl⟩ := mem_map.1 ((repairScan_kept buffer).2.subset h)
  exact ⟨fun hmem => newline_not_mem_line hwhole ((dropWhile_suffix _).subset hmem), head_of_stripLine whole⟩

theorem content_eq (s : RepairScan) : s.content = (s.keptLines.map rewritten).flatMap fun line => line ++ [10] := by
  unfold content
  cases hkept : s.keptLines with
  | nil => rfl
  | cons line lines =>
    rw [isEmpty_cons, if_neg Bool.false_ne_true]
    exact intercalate_append_sep [10] (by simp)

theorem feed_content (buffer : Bytes) : feed 10 [] (repairScan buffer).content =
    ((repairScan buffer).keptLines.map rewritten, []) := by
  have hsep : ∀ line ∈ (repairScan buffer).keptLines.map rewritten, (10 : UInt8) ∉ line := by
    intro line hline
    obtain ⟨kept, hkept, rfl⟩ := mem_map.1 hline
    exact newline_not_mem_rewritten (mem_keptLines hkept).1
  have hfeed := feed_flatMap hsep []
  rw [append_nil] at hfeed
  rw [content_eq, hfeed]
  simp [feed]

theorem texts_content (buffer : Bytes) :
    texts (repairScan buffer).content = (repairScan buffer).keptLines.map decode := by
  rw [texts, lines_eq, feed_content]
  simp [decode_rewritten]

theorem terminated_content (s : RepairScan) : JsonLines.Terminated s.content := by
  rw [content_eq]
  induction s.keptLines using reverseRecOn with
  | nil => exact .inl rfl
  | append_singleton lines line _ =>
    exact .inr ⟨(lines.map rewritten).flatMap (fun line => line ++ [10]) ++ rewritten line, by simp⟩

/-! ### What marks a file as damaged -/

theorem RepairScan.step_unterminated (s : RepairScan) (line : Bytes) : (s.step line false true).dirty = true := by
  unfold step recover keep
  dsimp only
  split_ifs <;> first | rfl | simp_all

theorem repairLines_tail {tail : Bytes} (h : tail ≠ []) (lines : List Bytes) : ∀ s : RepairScan,
    (repairLines tail lines s).dirty = true := by
  have hempty : tail.isEmpty = false := by simpa using h
  induction lines with
  | nil =>
    intro s
    rw [repairLines, hempty, if_neg Bool.false_ne_true]
    exact s.step_unterminated tail
  | cons line lines ih => exact fun s => ih _

theorem terminated_of_clean (h : (repairScan buffer).dirty = false) : JsonLines.Terminated buffer := by
  by_cases htail : (feed 10 [] buffer).2 = []
  · have hall := @Lines.flatMap_feed _ _ 10 buffer []
    rw [htail, append_nil, nil_append] at hall
    rw [← hall]
    induction (feed 10 [] buffer).1 using reverseRecOn with
    | nil => exact .inl rfl
    | append_singleton lines line _ => exact .inr ⟨lines.flatMap (fun p => p ++ [10]) ++ line, by simp⟩
  · rw [repairScan, repairLines_tail htail] at h
    cases h

/-- Lines that start with no NUL, each with its newline: only the last one can be at fault. -/
theorem repairLines_clean {lines : List Bytes} (hhead : ∀ line ∈ lines, line.head? ≠ some 0)
    (hlast : ∀ line ∈ lines.getLast?, line = [] ∨ parsesAsJson line = true) : ∀ s : RepairScan,
      (repairLines [] lines s).dirty = s.dirty := by
  induction lines with
  | nil => exact fun s => rfl
  | cons line lines ih =>
    intro s
    have hstrip : ¬ (line.dropWhile fun b => b == 0).length < line.length := by
      rw [show (line.dropWhile fun b => b == 0) = line from stripLine_of_head (hhead line mem_cons_self)]
      exact Nat.lt_irrefl _
    have hfinal : ((lines.isEmpty && List.isEmpty ([] : Bytes)) && !line.isEmpty && !parsesAsJson line) = false := by
      cases lines with
      | cons next lines => rfl
      | nil =>
        obtain rfl | hp := hlast line (by simp)
        · rfl
        · simp [hp]
    have hstep : s.step line true (lines.isEmpty && List.isEmpty ([] : Bytes)) = s.keep line := by
      unfold step
      dsimp only
      rw [if_neg hstrip, if_neg (by simp), if_neg (by rw [hfinal]; exact Bool.false_ne_true)]
    rw [repairLines, hstep]
    refine ih (fun l hl => hhead l (mem_cons_of_mem _ hl)) (fun l hl => ?_) (s.keep line)
    cases lines with
    | nil => cases hl
    | cons next lines => exact hlast l (by simpa using hl)

variable {bytes : Bytes}

theorem getLast?_window {size : Nat} (h : 0 < size) :
    (bytes.drop (bytes.length - size)).getLast? = bytes.getLast? := by
  rw [getLast?_drop]
  split
  · rename_i hle
    have hnil : bytes = [] := length_eq_zero_iff.1 (by omega)
    rw [hnil]
    rfl
  · rfl

theorem tail_newline (h : tailLooksDamaged bytes = false) : bytes.getLast? = none ∨ bytes.getLast? = some 10 := by
  have hsize : 0 < repairSuspicionWindowBytes := by
    unfold repairSuspicionWindowBytes
    omega
  -- the definition as a function: the kernel would count down the size of the window in its value
  have hdef := congrFun (f := tailLooksDamaged) (by delta tailLooksDamaged; exact rfl) bytes
  replace h := hdef.symm.trans h
  generalize repairSuspicionWindowBytes = size at h hsize
  rw [← getLast?_window hsize]
  cases hlast : (bytes.drop (bytes.length - size)).getLast? with
  | none => exact .inl rfl
  | some last =>
    simp only [hlast] at h
    by_cases hnewline : last = 10
    · exact .inr (by rw [hnewline])
    · have hne : (last != 10) = true := by simpa using hnewline
      simp only [hne, if_true] at h
      split at h <;> cases h

theorem terminated_of_tail (h : tailLooksDamaged bytes = false) : JsonLines.Terminated bytes := by
  obtain hnone | hlast := tail_newline h
  · exact .inl (getLast?_eq_none_iff.1 hnone)
  · exact .inr (getLast?_eq_some_iff.1 hlast)

theorem repairedContent_some {content : Bytes} (h : repairedContent bytes = some content) :
    content = (repairScan bytes).content := by
  unfold repairedContent at h
  split at h
  · cases h
    rfl
  · cases h

/-- A rewritten file whose last line is blank or parses is not rewritten again. -/
theorem repairedContent_content
    (h : ∀ text ∈ (texts (repairScan bytes).content).getLast?, text = [] ∨ parsesText text = true) :
    repairedContent (repairScan bytes).content = none := by
  have hhead : ∀ line ∈ (repairScan bytes).keptLines.map rewritten, line.head? ≠ some 0 := by
    intro line hline
    obtain ⟨kept, hkept, rfl⟩ := mem_map.1 hline
    have hne := head_decode_ne (mem_keptLines hkept).2
    unfold rewritten
    cases hd : decode kept with
    | nil => simp [encode]
    | cons c text =>
      rw [hd] at hne
      intro hnul
      have hmem : (0 : UInt8) ∈ encodeChar c := by
        have hne' : encodeChar c ≠ [] := by
          have := @Utf8.encode_ne_nil [c] (by simp)
          simpa [encode] using this
        rw [encode_cons, head?_append_of_ne_nil _ hne'] at hnul
        exact mem_of_mem_head? hnul
      have hc : c = '\x00' := Char.toNat_inj.1 (ascii_mem_encodeChar (by decide) hmem)
      exact hne (by rw [hc]; rfl)
  have hclean : (repairScan (repairScan bytes).content).dirty = false := by
    rw [repairScan, feed_content]
    refine repairLines_clean hhead (fun line hline => ?_) _
    rw [texts_content, getLast?_map] at h
    rw [getLast?_map] at hline
    obtain ⟨kept, hkept, rfl⟩ := Option.map_eq_some_iff.1 hline
    obtain hnil | hp := h (decode kept) (by rw [hkept]; rfl)
    · exact .inl (by rw [rewritten, hnil]; rfl)
    · exact .inr (by rw [parsesAsJson, decode_rewritten]; exact hp)
  unfold repairedContent
  rw [hclean, Bool.and_false, if_neg Bool.false_ne_true]

/-- **After a repair** every line that parsed is there, in the same order, and no line is that was not,
but for leading NULs; of a rewritten file's lines there is what `survivors` leaves, none with leading NULs; the file is
empty or ends with a newline; and a second repair changes nothing when the last line is blank or parses. -/
theorem repair_keeps (bytes : Bytes) : ((texts bytes).filter parsesText).Sublist (texts (repaired bytes)) ∧
      ((texts (repaired bytes)).map stripNuls).Sublist ((texts bytes).map stripNuls) ∧
      (∀ content, repairedContent bytes = some content →
        texts content = survivors (bytes.getLast? == some 10) (texts bytes) ∧
        ∀ text ∈ texts content, text.head? ≠ some '\x00') ∧
      JsonLines.Terminated (repaired bytes) ∧
      ((∀ text ∈ (texts (repaired bytes)).getLast?, text = [] ∨ parsesText text = true) →
        repaired (repaired bytes) = repaired bytes) := by
  obtain ⟨hstays, hout⟩ := repairScan_kept bytes
  cases hr : repairedContent bytes with
  | none =>
    have hsame : repaired bytes = bytes := by rw [repaired, hr]; rfl
    have hclean : JsonLines.Terminated bytes := by
      unfold repairedContent at hr
      split at hr
      · cases hr
      · rename_i hno
        rw [Bool.and_eq_true, not_and_or, Bool.not_eq_true, Bool.not_eq_true] at hno
        cases hno with
        | inl htail => exact terminated_of_tail htail
        | inr hdirty => exact terminated_of_clean hdirty
    rw [hsame]
    exact ⟨filter_sublist, List.Sublist.refl _, by simp, hclean, fun _ => hsame⟩
  | some content =>
    have hcontent := repairedContent_some hr
    have hsame : repaired bytes = (repairScan bytes).content := by rw [repaired, hr, hcontent]; rfl
    rw [hsame]
    refine ⟨?_, ?_, ?_, terminated_content _, fun h => ?_⟩
    · rw [texts_content, hstays]
      exact filter_sublist_survivors _ _
    · have hkept := (hout.map decode).map stripNuls
      rw [texts_content, texts]
      have hstrip : (((lines 10 bytes).map stripLine).map decode).map stripNuls =
          ((lines 10 bytes).map decode).map stripNuls := by
        simp only [map_map]
        refine map_congr_left fun line _ => ?_
        show stripNuls (decode (stripLine line)) = stripNuls (decode line)
        rw [decode_stripLine]
        exact dropWhile_idempotent _ (decode line)
      rw [hstrip] at hkept
      exact hkept
    · intro c hc
      cases hc
      rw [hcontent, texts_content]
      refine ⟨hstays, fun text htext => ?_⟩
      obtain ⟨kept, hkept, rfl⟩ := mem_map.1 htext
      exact head_decode_ne (mem_keptLines hkept).2
    · rw [repaired, repairedContent_content h]
      rfl

/-- The torn last line is dropped; the line before it stays, though it does not parse either. -/
theorem repair_keeps_malformed :
    texts [120, 10, 123, 10] = [['x'], ['{']] ∧ texts (repaired [120, 10, 123, 10]) = [['x']] ∧
      parsesText ['x'] = false := by
  decide

end Session
end RePrime
