import RePrime.Tui.Editor

/-!
# RePrime.Tui.Autocomplete

`CombinedAutocompleteProvider` (`autocomplete.ts`): the prefix that its suggestions are for, and what it does with the
item that is taken. Which items it suggests is left open.

* `answerPrefix_suffix`: the prefix of an answer is at the end of the text before the cursor.
* `applyCompletion_replacesAt_iff`: taking an item replaces the prefix at a place just when the cursor is at its end.
-/

namespace RePrime
namespace Tui

open JsText Editor List Option

namespace Autocomplete

def quote : UInt16 := 0x22

def atSign : UInt16 := 0x40

/-- `PATH_DELIMITERS` -/
def isPathDelimiter (u : UInt16) : Bool := isBlankUnit u || u == quote || u == 0x27 || u == 0x3d

/-- The text after `findLastDelimiter(text)`. -/
def lastToken (text : JsString) : JsString := text.rtakeWhile fun u => !isPathDelimiter u

/-- The loop of `findUnclosedQuoteStart`: `start` is the open quote. -/
def unclosedQuoteFrom : Nat → Option Nat → JsString → Option Nat
  | _, start, [] => start
  | i, start, u :: text =>
    unclosedQuoteFrom (i + 1) (if u = quote then (if start.isSome then none else some i) else start) text

def findUnclosedQuoteStart (text : JsString) : Option Nat := unclosedQuoteFrom 0 none text

def isTokenStart (text : JsString) (index : Nat) : Bool := index == 0 || text[index - 1]?.any isPathDelimiter

def extractQuotedPrefix (text : JsString) : Option JsString :=
  (findUnclosedQuoteStart text).bind fun quoteStart =>
    if quoteStart > 0 ∧ text[quoteStart - 1]? = some atSign then
      if isTokenStart text (quoteStart - 1) then some (text.drop (quoteStart - 1)) else none
    else if isTokenStart text quoteStart then some (text.drop quoteStart)
    else none

def extractAtPrefix (text : JsString) : Option JsString :=
  ((extractQuotedPrefix text).filter fun quoted => [atSign, quote].isPrefixOf quoted).or
    (if (lastToken text).head? = some atSign then some (lastToken text) else none)

def extractPathPrefix (text : JsString) (forceExtract : Bool) : Option JsString :=
  (extractQuotedPrefix text).or
    (let pathPrefix := lastToken text
    if forceExtract then some pathPrefix
    else if pathPrefix.contains slash || pathPrefix.head? == some 0x2e then some pathPrefix
    else if pathPrefix = [] ∧ text.getLast? = some 0x20 then some pathPrefix
    else none)

/-- The prefix and the kind of what `getSuggestions` answers, when it has something to suggest. -/
def answerPrefix (lines : List JsString) (cursorLine : Nat) (cursorCol : Int) (force : Bool) :
    Option (JsString × Option SuggestionKind) :=
  let textBeforeCursor := sliceTo (lines.getD cursorLine []) cursorCol
  match extractAtPrefix textBeforeCursor with
  | some atPrefix => some (atPrefix, some .file)
  | none =>
    match if force then none else getSlashCommandContext lines cursorLine cursorCol with
    | some (.name prefixText _) => some (prefixText, some .slashCommand)
    | some (.argument _ prefixText) => some (prefixText, none)
    | none => (extractPathPrefix textBeforeCursor force).map fun pathMatch => (pathMatch, some .file)

/-- A command, as far as taking it goes; `takesArgument` is `commandTakesArgument(command)`. -/
structure SlashCommand where
  name : JsString
  takesArgument : Bool

/-- The command that the item is, when the prefix is the name that is typed at the cursor. -/
def slashCommand (commands : List SlashCommand) (lines : List JsString) (cursorLine : Nat) (cursorCol : Int)
    (item : AutocompleteItem) (prefixText : JsString) : Option SlashCommand :=
  match getSlashCommandContext lines cursorLine cursorCol with
  | some (.name typed _) =>
    if typed = prefixText then commands.find? fun command => command.name == item.value else none
  | _ => none

/-- What takes the place of the prefix, and how far into it the cursor goes. The source writes the branch of a
command's argument out; it does what the last one does. -/
def insertion (command : Option SlashCommand) (item : AutocompleteItem) (prefixText afterCursor : JsString) :
    JsString × Nat :=
  match command with
  | some command =>
    let separator := if !command.takesArgument || afterCursor.head?.any isBlankUnit then [] else ofAscii " "
    (slash :: item.value ++ separator, item.value.length + if command.takesArgument then 2 else 1)
  | none =>
    let isDirectory := item.label.getLast? == some slash
    let cursorOffset :=
      if isDirectory && item.value.getLast? == some quote then item.value.length - 1 else item.value.length
    if prefixText.head? = some atSign then
      let suffix := if isDirectory then [] else ofAscii " "
      (item.value ++ suffix, cursorOffset + suffix.length)
    else (item.value, cursorOffset)

/-- The text after the cursor, without the quote that the item brings along. -/
def adjustedAfterCursor (item : AutocompleteItem) (prefixText afterCursor : JsString) : JsString :=
  let isQuotedPrefix := prefixText.head? == some quote || [atSign, quote].isPrefixOf prefixText
  if isQuotedPrefix && item.value.getLast? == some quote && afterCursor.head? == some quote then afterCursor.tail
  else afterCursor

def applyCompletion (commands : List SlashCommand) (lines : List JsString) (cursorLine : Nat) (cursorCol : Int)
    (item : AutocompleteItem) (prefixText : JsString) : EditorState :=
  let currentLine := lines.getD cursorLine []
  let beforePrefix := sliceTo currentLine (cursorCol - prefixText.length)
  let afterCursor := adjustedAfterCursor item prefixText (sliceFrom currentLine cursorCol)
  let command := slashCommand commands lines cursorLine cursorCol item prefixText
  let (inserted, offset) := insertion command item prefixText afterCursor
  { lines := putLine lines cursorLine (beforePrefix ++ inserted ++ afterCursor)
    cursorLine := cursorLine
    cursorCol := beforePrefix.length + offset }

end Autocomplete

/-- `CombinedAutocompleteProvider`, with its commands. -/
def combinedAutocompleteProvider (commands : List Autocomplete.SlashCommand) : AutocompleteProvider where
  applyCompletion := Autocomplete.applyCompletion commands
  shouldTriggerFileCompletion := fun lines cursorLine cursorCol =>
    !isNameContext (getSlashCommandContext lines cursorLine cursorCol)

namespace Autocomplete

/-! ### The prefix -/

theorem lastToken_suffix (text : JsString) : lastToken text <:+ text := rtakeWhile_suffix _ _

theorem extractQuotedPrefix_suffix {text p : JsString} (h : extractQuotedPrefix text = some p) : p <:+ text := by
  obtain ⟨quoteStart, -, h⟩ := bind_eq_some_iff.mp h
  split_ifs at h
  · cases h
    exact drop_suffix _ _
  · cases h
    exact drop_suffix _ _

theorem extractAtPrefix_suffix {text p : JsString} (h : extractAtPrefix text = some p) : p <:+ text := by
  rcases or_eq_some_iff.mp h with hquoted | ⟨-, htoken⟩
  · exact extractQuotedPrefix_suffix (filter_eq_some_iff.mp hquoted).1
  · split_ifs at htoken
    cases htoken
    exact lastToken_suffix text

theorem extractPathPrefix_suffix {text p : JsString} {force : Bool} (h : extractPathPrefix text force = some p) :
    p <:+ text := by
  rcases or_eq_some_iff.mp h with hquoted | ⟨-, htoken⟩
  · exact extractQuotedPrefix_suffix hquoted
  · dsimp only at htoken
    split_ifs at htoken
    all_goals
      cases htoken
      exact lastToken_suffix text

/-- The prefix of a slash command, or of its argument. -/
def contextPrefix : SlashCommandContext → JsString
  | .name prefixText _ => prefixText
  | .argument _ prefixText => prefixText

theorem slashContext_suffix {lines : List JsString} {cursorLine : Nat} {cursorCol : Int} {context : SlashCommandContext}
    (h : getSlashCommandContext lines cursorLine cursorCol = some context) :
    contextPrefix context <:+ sliceTo (lines.getD cursorLine []) cursorCol := by
  unfold getSlashCommandContext at h
  dsimp only at h
  generalize sliceTo (lines.getD cursorLine []) cursorCol = text at h ⊢
  split at h
  · have htrim : text.dropWhile isSpace <:+ text := dropWhile_suffix _
    generalize text.dropWhile isSpace = trimmed at h htrim
    split at h
    · cases h
    · split at h
      · rename_i hend
        cases h
        -- without a separator the command token is all of the text
        have hall : trimmed.takeWhile (fun u => !isBlankUnit u) = trimmed := by
          have hsplit := takeWhile_append_dropWhile (p := fun u => !isBlankUnit u) (l := trimmed)
          rwa [hend, append_nil] at hsplit
        rw [contextPrefix, hall]
        exact htrim
      · rename_i rest hrest
        split at h
        · cases h
        · cases h
          have hsuffix : trimmed.dropWhile (fun u => !isBlankUnit u) <:+ trimmed := dropWhile_suffix _
          rw [hrest] at hsuffix
          exact ((suffix_cons _ rest).trans hsuffix).trans htrim
  · split at h
    · cases h
    · cases h
      exact rtakeWhile_suffix _ _

theorem answerPrefix_suffix {lines : List JsString} {cursorLine : Nat} {cursorCol : Int} {force : Bool}
    {answer : JsString × Option SuggestionKind} (h : answerPrefix lines cursorLine cursorCol force = some answer) :
    answer.1 <:+ sliceTo (lines.getD cursorLine []) cursorCol := by
  unfold answerPrefix at h
  dsimp only at h
  split at h
  · cases h
    exact extractAtPrefix_suffix ‹_›
  · have hcontext : ∀ {context}, (if force then none else getSlashCommandContext lines cursorLine cursorCol)
        = some context → getSlashCommandContext lines cursorLine cursorCol = some context := by
      intro context hc
      split_ifs at hc
      exact hc
    split at h
    · rename_i hc
      cases h
      exact slashContext_suffix (hcontext hc)
    · rename_i hc
      cases h
      exact slashContext_suffix (hcontext hc)
    · obtain ⟨pathMatch, hpath, rfl⟩ := map_eq_some_iff.mp h
      exact extractPathPrefix_suffix hpath

/-! ### Taking an item -/

/-- A place in the text: what stands before it and after it in its line. -/
structure Place where
  line : Nat
  before : JsString
  after : JsString

/-- The text `p` stands at the place. -/
def Place.Holds (place : Place) (st : EditorState) (p : JsString) : Prop :=
  st.lines[place.line]? = some (place.before ++ p ++ place.after)

/-- The cursor is at the end of the `p` of the place. -/
structure Place.Ends (place : Place) (st : EditorState) (p : JsString) : Prop where
  line : st.cursorLine = place.line
  col : st.cursorCol = place.before.length + p.length

/-- What is put in for an item: its text, with the slash of a command in front of it and a blank behind it. The cursor
goes behind the text, into a quote at its end or over a blank after it. -/
structure Replacement (value : JsString) where
  lead : JsString
  trail : JsString
  offset : Nat
  lead_cases : lead = [] ∨ lead = [slash]
  trail_cases : trail = [] ∨ trail = ofAscii " "
  offset_low : lead.length + value.length ≤ offset + 1
  offset_high : offset ≤ lead.length + value.length + 1

def Replacement.text {value : JsString} (c : Replacement value) : JsString := c.lead ++ value ++ c.trail

/-- Of all the text only `p` at the place is replaced, and the cursor goes where it belongs in what is put in, in the
line. The quote that ends the item's text may be one that was there, after a prefix that opens it. -/
structure ReplacesAt {value : JsString} (c : Replacement value) (p : JsString) (st st' : EditorState) (place : Place) :
    Prop where
  lines : st'.lines = st.lines.set place.line (place.before ++ c.text ++ place.after) ∨
    ∃ quoted rest, (p.head? = some quote ∨ [atSign, quote] <+: p) ∧ value = quoted ++ [quote] ∧
      place.after = quote :: rest ∧
      st'.lines = st.lines.set place.line (place.before ++ (c.lead ++ quoted) ++ quote :: (c.trail ++ rest))
  cursorLine : st'.cursorLine = place.line
  cursorCol : st'.cursorCol = place.before.length + c.offset
  inside : st'.CursorInside

/-- The place is a quote that is all of its line, with the cursor in front of it, and the item's text ends in a quote:
what is cut off before the cursor and the quote that is dropped after it are the same quote. -/
structure Place.LoneQuote (place : Place) (st : EditorState) (p value : JsString) : Prop where
  line : st.cursorLine = place.line
  col : st.cursorCol = 0
  alone : place.before = [] ∧ p = [quote] ∧ place.after = []
  closing : value.getLast? = some quote

/-- A command is put in behind its slash, with a blank when it takes an argument and none is there. -/
theorem insertion_command (command : SlashCommand) (item : AutocompleteItem) (prefixText afterCursor : JsString) :
    ∃ c : Replacement item.value, insertion (some command) item prefixText afterCursor = (c.text, c.offset) ∧
      c.offset ≤ c.text.length + afterCursor.length := by
  cases hc : command.takesArgument with
  | false =>
    refine ⟨⟨[slash], [], item.value.length + 1, .inr rfl, .inl rfl, ?_, ?_⟩, ?_, ?_⟩
    · simp only [length_singleton]
      omega
    · simp
    · simp [insertion, Replacement.text, hc]
    · simp [Replacement.text]
  | true =>
    have hlow : [slash].length + item.value.length ≤ item.value.length + 2 + 1 := by
      simp only [length_singleton]
      omega
    have hhigh : item.value.length + 2 ≤ [slash].length + item.value.length + 1 := by
      simp only [length_singleton]
      omega
    cases hblank : afterCursor.head?.any isBlankUnit with
    | false =>
      refine ⟨⟨[slash], ofAscii " ", item.value.length + 2, .inr rfl, .inr rfl, hlow, hhigh⟩, ?_, ?_⟩
      · simp [insertion, Replacement.text, hc, hblank]
      · simp [Replacement.text, ofAscii]
    | true =>
      refine ⟨⟨[slash], [], item.value.length + 2, .inr rfl, .inl rfl, hlow, hhigh⟩, ?_, ?_⟩
      · simp [insertion, Replacement.text, hc, hblank]
      · cases afterCursor with
        | nil => simp at hblank
        | cons u rest =>
          simp [Replacement.text]
          omega

/-- The cursor goes behind the text, or in front of the quote at its end. -/
theorem cursorOffset_bounds (item : AutocompleteItem) : ∃ offset,
    (if (item.label.getLast? == some slash) && item.value.getLast? == some quote then item.value.length - 1
      else item.value.length) = offset ∧ item.value.length ≤ offset + 1 ∧ offset ≤ item.value.length := by
  split_ifs
  · exact ⟨_, rfl, by omega, by omega⟩
  · exact ⟨_, rfl, by omega, by omega⟩

/-- Any other item is put in as it is, a file behind `@` with a blank. -/
theorem insertion_other (item : AutocompleteItem) (prefixText afterCursor : JsString) :
    ∃ c : Replacement item.value, insertion none item prefixText afterCursor = (c.text, c.offset) ∧
      c.offset ≤ c.text.length + afterCursor.length := by
  obtain ⟨offset, hcursor, hlow, hhigh⟩ := cursorOffset_bounds item
  unfold insertion
  simp only [hcursor]
  split
  · cases item.label.getLast? == some slash with
    | true =>
      refine ⟨⟨[], [], offset, .inl rfl, .inl rfl, ?_, ?_⟩, ?_, ?_⟩
      · simpa using hlow
      · simp
        omega
      · simp [Replacement.text]
      · simp [Replacement.text]
        omega
    | false =>
      refine ⟨⟨[], ofAscii " ", offset + 1, .inl rfl, .inr rfl, ?_, ?_⟩, ?_, ?_⟩
      · simp
        omega
      · simpa using hhigh
      · simp [Replacement.text, ofAscii]
      · simp [Replacement.text, ofAscii]
        omega
  · refine ⟨⟨[], [], offset, .inl rfl, .inl rfl, ?_, ?_⟩, ?_, ?_⟩
    · simpa using hlow
    · simp
      omega
    · simp [Replacement.text]
    · simp [Replacement.text]
      omega

/-- The item's text is put in whole, and the cursor goes no further than the text after it. -/
theorem insertion_eq (command : Option SlashCommand) (item : AutocompleteItem) (prefixText afterCursor : JsString) :
    ∃ c : Replacement item.value, insertion command item prefixText afterCursor = (c.text, c.offset) ∧
      c.offset ≤ c.text.length + afterCursor.length := by
  cases command with
  | some command => exact insertion_command command item prefixText afterCursor
  | none => exact insertion_other item prefixText afterCursor

/-- The quote after the cursor is dropped when both the prefix opens one and the item brings its own. -/
theorem adjustedAfterCursor_cases (item : AutocompleteItem) (prefixText afterCursor : JsString) :
    adjustedAfterCursor item prefixText afterCursor = afterCursor ∨
      ∃ quoted rest, (prefixText.head? = some quote ∨ [atSign, quote] <+: prefixText) ∧
        item.value = quoted ++ [quote] ∧ afterCursor = quote :: rest ∧
        adjustedAfterCursor item prefixText afterCursor = rest := by
  unfold adjustedAfterCursor
  dsimp only
  split
  · rename_i hc
    simp only [Bool.and_eq_true, Bool.or_eq_true, beq_iff_eq, isPrefixOf_iff_prefix] at hc
    obtain ⟨⟨hopen, hvalue⟩, hafter⟩ := hc
    obtain ⟨quoted, hquoted⟩ := getLast?_eq_some_iff.mp hvalue
    obtain ⟨rest, hrest⟩ := head?_eq_some_iff.mp hafter
    exact .inr ⟨quoted, rest, hopen, hquoted, hrest, by rw [hrest]; rfl⟩
  · exact .inl rfl

variable {commands : List SlashCommand} {st : EditorState} {item : AutocompleteItem} {p : JsString}

/-- The line of the cursor becomes `before`, the replacement and what is left of `after`. -/
def CutAt (c : Replacement item.value) (p : JsString) (st st' : EditorState) (before after : JsString) : Prop :=
  st' = ⟨st.lines.set st.cursorLine (before ++ c.text ++ adjustedAfterCursor item p after), st.cursorLine,
    before.length + c.offset⟩ ∧ st'.CursorInside

/-- The line is cut at the cursor, and where a prefix that ends there would start. -/
theorem applyCompletion_cutAt (commands : List SlashCommand) (st : EditorState) (item : AutocompleteItem)
    (p : JsString) : ∃ c : Replacement item.value, ∀ line, st.lines[st.cursorLine]? = some line →
      CutAt c p st (applyCompletion commands st.lines st.cursorLine st.cursorCol item p)
        (sliceTo line (st.cursorCol - p.length)) (sliceFrom line st.cursorCol) := by
  obtain ⟨c, hinsertion, hoffset⟩ := insertion_eq
    (slashCommand commands st.lines st.cursorLine st.cursorCol item p) item p
    (adjustedAfterCursor item p (sliceFrom (st.lines.getD st.cursorLine []) st.cursorCol))
  refine ⟨c, fun line hline => ?_⟩
  obtain ⟨hlt, -⟩ := List.getElem?_eq_some_iff.mp hline
  have hget : st.lines.getD st.cursorLine [] = line := by rw [getD_eq_getElem?_getD, hline, getD_some]
  rw [hget] at hinsertion hoffset
  have happly : applyCompletion commands st.lines st.cursorLine st.cursorCol item p =
      ⟨st.lines.set st.cursorLine (sliceTo line (st.cursorCol - p.length) ++ c.text ++
        adjustedAfterCursor item p (sliceFrom line st.cursorCol)), st.cursorLine,
        (sliceTo line (st.cursorCol - p.length)).length + c.offset⟩ := by
    unfold applyCompletion
    simp only [hget, hinsertion, putLine, if_pos hlt]
  refine ⟨happly, ?_⟩
  rw [happly]
  refine ⟨by simpa using hlt, ?_, ?_⟩
  · dsimp only
    omega
  · dsimp only
    rw [getD_eq_getElem?_getD, getElem?_set_self hlt, getD_some, length_append, length_append]
    omega

/-- The two cuts, when the prefix is at the cursor. -/
theorem cuts_of_col {before : JsString} (after : JsString) (hcol : st.cursorCol = before.length + p.length) :
    sliceTo (before ++ p ++ after) (st.cursorCol - p.length) = before ∧
      sliceFrom (before ++ p ++ after) st.cursorCol = after := by
  constructor
  · have hcut : st.cursorCol - p.length = (before.length : Int) := by rw [hcol]; omega
    rw [hcut, sliceTo, sliceOffset, if_neg (by omega), Int.toNat_natCast, append_assoc, take_left]
  · have hcut : st.cursorCol = ((before ++ p).length : Int) := by rw [hcol, length_append]; rfl
    rw [hcut, sliceFrom, sliceOffset, if_neg (by omega), Int.toNat_natCast, drop_left]

variable {c : Replacement item.value} {st' : EditorState} {place : Place}

theorem CutAt.replacesAt (h : CutAt c p st st' place.before place.after) (hline : st.cursorLine = place.line) :
    ReplacesAt c p st st' place := by
  obtain ⟨rfl, hinside⟩ := h
  refine ⟨?_, hline, rfl, hinside⟩
  dsimp only
  rcases adjustedAfterCursor_cases item p place.after with hsame | ⟨quoted, rest, hopen, hquoted, hquote, hrest⟩
  · exact .inl (by rw [hsame, hline])
  · have htext : c.text = c.lead ++ (quoted ++ [quote]) ++ c.trail :=
      congrArg (fun value => c.lead ++ value ++ c.trail) hquoted
    refine .inr ⟨quoted, rest, hopen, hquoted, hquote, ?_⟩
    rw [hrest, hline, htext]
    simp

/-- A quote that is all of the line, with the cursor in front of it: what is after the cursor is dropped. -/
theorem CutAt.replacesAt_lone {line : JsString} (hholds : line = place.before ++ p ++ place.after)
    (h : CutAt c p st st' (sliceTo line (st.cursorCol - p.length)) (sliceFrom line st.cursorCol))
    (hlone : place.LoneQuote st p item.value) : ReplacesAt c p st st' place := by
  obtain ⟨hline, hcol, ⟨hbefore, rfl, hafter⟩, hclosing⟩ := hlone
  subst hholds
  rw [hbefore, hafter, hcol] at h
  obtain ⟨rfl, hinside⟩ := h
  have hdropped : adjustedAfterCursor item [quote] [quote] = [] := by
    simp [adjustedAfterCursor, hclosing]
  refine ⟨.inl ?_, hline, ?_, hinside⟩
  · rw [hbefore, hafter, ← hline]
    dsimp only
    rw [show sliceFrom ([] ++ [quote] ++ []) 0 = [quote] from rfl, hdropped]
    rfl
  · rw [hbefore]
    rfl

theorem adjustedAfterCursor_nil {after : JsString} (h : adjustedAfterCursor item p after = []) :
    after = [] ∨ after = [quote] ∧ item.value.getLast? = some quote := by
  rcases adjustedAfterCursor_cases item p after with hsame | ⟨quoted, rest, -, hquoted, hquote, hrest⟩
  · exact .inl (hsame.symm.trans h)
  · rw [hquote, ← hrest, h, hquoted]
    exact .inr ⟨rfl, by simp⟩

/-- A line of which nothing is left over after its end is the quote that the item brings along. -/
theorem lone_of_adjustedAfterCursor {line before : JsString} (hline : line = before ++ p) (hp : p ≠ [])
    (h : adjustedAfterCursor item p line = []) :
    (before = [] ∧ p = [quote]) ∧ item.value.getLast? = some quote := by
  rcases adjustedAfterCursor_nil h with hempty | ⟨hquote, hclosing⟩
  · rw [hempty] at hline
    exact absurd (append_eq_nil_iff.mp hline.symm).2 hp
  · rw [hquote] at hline
    rcases append_eq_singleton_iff.mp hline.symm with hlone | ⟨-, hnil⟩
    · exact ⟨hlone, hclosing⟩
    · exact absurd hnil hp

/-- Where the text is replaced at the place, the cuts are around it: the cursor stands where the replacement has it, so
that the text is cut off at the start of the place. -/
theorem CutAt.place_of_replacesAt {line : JsString} (hline : st.lines[st.cursorLine]? = some line)
    (hholds : place.Holds st p) (hinside : st.CursorInside)
    (h : CutAt c p st st' (sliceTo line (st.cursorCol - p.length)) (sliceFrom line st.cursorCol))
    (hreplaces : ReplacesAt c p st st' place) : place.Ends st p ∨ place.LoneQuote st p item.value := by
  obtain ⟨rfl, -⟩ := h
  obtain ⟨hlines, hcursorLine, hcursorCol, -⟩ := hreplaces
  dsimp only at hlines hcursorLine hcursorCol
  obtain ⟨hlt, hget⟩ := List.getElem?_eq_some_iff.mp hline
  have hplace : line = place.before ++ p ++ place.after := by
    rw [Place.Holds, ← hcursorLine, hline] at hholds
    exact Option.some.inj hholds
  have hle : st.cursorCol ≤ line.length := by
    have := hinside.col_le
    rwa [getD_eq_getElem?_getD, hline, getD_some] at this
  have hnonneg := hinside.col_nonneg
  have hcut : (sliceTo line (st.cursorCol - p.length)).length = place.before.length := by omega
  by_cases hcol : (p.length : Int) ≤ st.cursorCol
  · -- the prefix is cut off in front of the cursor
    rw [sliceTo, sliceOffset, if_neg (by omega), length_take] at hcut
    exact .inl ⟨hcursorLine, by omega⟩
  · -- a column in front of the prefix's length counts from the end of the line
    have hlength := congrArg List.length hplace
    simp only [length_append] at hlength
    rw [sliceTo, sliceOffset, if_pos (by omega), length_take] at hcut
    have hafter : place.after = [] := List.eq_nil_of_length_eq_zero (by omega)
    have hzero : st.cursorCol = 0 := by omega
    have hwhole : sliceFrom line st.cursorCol = line := by rw [hzero]; rfl
    rw [hwhole] at hlines
    have hnil : adjustedAfterCursor item p line = [] := by
      rcases hlines with hlines | ⟨quoted, rest, -, -, hquote, -⟩
      · have hsame := congrArg (fun lines => lines[st.cursorLine]?) hlines
        rw [← hcursorLine, getElem?_set_self hlt, getElem?_set_self hlt] at hsame
        have hlengths := congrArg List.length (Option.some.inj hsame)
        simp only [length_append, hafter, length_nil] at hlengths
        exact List.eq_nil_of_length_eq_zero (by omega)
      · rw [hafter] at hquote
        cases hquote
    rw [hafter, append_nil] at hplace
    have hne : p ≠ [] := by
      rintro rfl
      exact hcol (by rw [hzero]; rfl)
    obtain ⟨⟨hbefore, hquote⟩, hclosing⟩ := lone_of_adjustedAfterCursor hplace hne hnil
    exact .inr ⟨hcursorLine, hzero, ⟨hbefore, hquote, hafter⟩, hclosing⟩

/-- **Taking an item** replaces the prefix at a place just when the cursor is at its end there (or the two quotes of a
lone quote are the same). -/
theorem applyCompletion_replacesAt_iff (commands : List SlashCommand) (st : EditorState) (item : AutocompleteItem)
    (p : JsString) : ∃ c : Replacement item.value, ∀ place : Place, place.Holds st p →
      (st.CursorInside ∧
        ReplacesAt c p st (applyCompletion commands st.lines st.cursorLine st.cursorCol item p) place ↔
          place.Ends st p ∨ place.LoneQuote st p item.value) := by
  obtain ⟨c, hcut⟩ := applyCompletion_cutAt commands st item p
  refine ⟨c, fun place hholds => ⟨?_, ?_⟩⟩
  · rintro ⟨hinside, hreplaces⟩
    have hline := List.getElem?_eq_getElem hinside.line
    exact CutAt.place_of_replacesAt hline hholds hinside (hcut _ hline) hreplaces
  · rintro (⟨hline, hcol⟩ | hlone)
    · have hat : st.lines[st.cursorLine]? = some (place.before ++ p ++ place.after) := hline ▸ hholds
      obtain ⟨hbefore, hafter⟩ := cuts_of_col place.after hcol
      have h := hcut _ hat
      rw [hbefore, hafter] at h
      refine ⟨⟨(List.getElem?_eq_some_iff.mp hat).1, by omega, ?_⟩, CutAt.replacesAt h hline⟩
      rw [getD_eq_getElem?_getD, hat, getD_some]
      simp only [length_append]
      omega
    · have hat : st.lines[st.cursorLine]? = some (place.before ++ p ++ place.after) := hlone.line ▸ hholds
      refine ⟨⟨(List.getElem?_eq_some_iff.mp hat).1, hlone.col.ge, ?_⟩,
        CutAt.replacesAt_lone rfl (hcut _ hat) hlone⟩
      rw [hlone.col]
      exact Int.natCast_nonneg _

end Autocomplete
end Tui
end RePrime
