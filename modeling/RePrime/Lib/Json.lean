import Mathlib.Data.List.TakeWhile
import Mathlib.Tactic.IntervalCases

/-!
# RePrime.Lib.Json

JSON values, the text `JSON.stringify` writes for them (no spaces, control characters escaped)
and the parser of RFC 8259 that `JSON.parse` implements.

* A number is kept as its text (`Number`): a word of the number grammar. Integers are written by
  `Value.int`.
* Strings are sequences of Unicode scalar values. A `\u` escape that denotes half of a surrogate
  pair without the other half is read as U+FFFD, which a `Char` can hold.
* The parser is fuel-bounded by the length of its input, so that it evaluates; `parse_stringify`
  (`Lib/JsonRoundTrip.lean`) shows that the bound is never reached on written text.
-/

namespace RePrime
namespace Json

/-! ## Numbers -/

/-- States of the automaton for `-?(0|[1-9][0-9]*)(\.[0-9]+)?([eE][+-]?[0-9]+)?`. -/
inductive NumberState where
  | start | minus | zero | int | dot | frac | exp | expSign | expInt | bad
  deriving DecidableEq, Repr

open NumberState

def NumberState.step : NumberState → Char → NumberState
  | .start, c => if c = '-' then .minus else if c = '0' then .zero else if c.isDigit then .int else .bad
  | .minus, c => if c = '0' then .zero else if c.isDigit then .int else .bad
  | .zero, c => if c = '.' then .dot else if c = 'e' ∨ c = 'E' then .exp else .bad
  | .int, c =>
    if c.isDigit then .int else if c = '.' then .dot else if c = 'e' ∨ c = 'E' then .exp else .bad
  | .dot, c => if c.isDigit then .frac else .bad
  | .frac, c => if c.isDigit then .frac else if c = 'e' ∨ c = 'E' then .exp else .bad
  | .exp, c => if c.isDigit then .expInt else if c = '+' ∨ c = '-' then .expSign else .bad
  | .expSign, c => if c.isDigit then .expInt else .bad
  | .expInt, c => if c.isDigit then .expInt else .bad
  | .bad, _ => .bad

def NumberState.accepts : NumberState → Bool
  | .zero | .int | .frac | .expInt => true
  | _ => false

def isNumber (text : List Char) : Bool := (text.foldl step .start).accepts

def isNumberChar (c : Char) : Bool :=
  c.isDigit || c == '-' || c == '+' || c == '.' || c == 'e' || c == 'E'

/-- A number, kept as the text it is written with. -/
structure Number where
  text : List Char
  valid : isNumber text = true

theorem NumberState.step_ne_bad {st : NumberState} {c : Char} (h : st.step c ≠ .bad) : isNumberChar c = true := by
  cases st <;> simp only [step, ne_eq, not_true_eq_false] at h <;> split_ifs at h <;>
    first
    | (subst c; decide)
    | grind [isNumberChar]

theorem NumberState.foldl_bad (text : List Char) : text.foldl step .bad = .bad := by
  induction text with
  | nil => rfl
  | cons c text ih => simpa [step] using ih

theorem NumberState.foldl_ne_bad {text : List Char} :
    ∀ {st : NumberState}, text.foldl step st ≠ .bad → ∀ c ∈ text, isNumberChar c = true := by
  induction text with
  | nil => simp
  | cons c text ih =>
    intro st h d hd
    simp only [List.foldl_cons] at h
    rcases List.mem_cons.1 hd with rfl | hd
    · refine @NumberState.step_ne_bad st d fun hbad => h ?_
      rw [hbad, foldl_bad]
    · exact ih h d hd

theorem Number.isNumberChar_of_mem (n : Number) {c : Char} (hc : c ∈ n.text) : isNumberChar c = true := by
  refine @NumberState.foldl_ne_bad _ .start (fun hbad => ?_) c hc
  have h := n.valid
  simp [isNumber, hbad, accepts] at h

theorem Number.text_ne_nil (n : Number) : n.text ≠ [] := by
  intro h
  have := n.valid
  simp [isNumber, h, accepts] at this

/-- The longest run of number characters must be a number as a whole: what may follow a number
in a JSON text (a space, a comma, a bracket) is not a number character. -/
def scanNumber (s : List Char) : Option (Number × List Char) :=
  if h : isNumber (s.takeWhile isNumberChar) = true then
    some (⟨s.takeWhile isNumberChar, h⟩, s.dropWhile isNumberChar)
  else none

/-! ## Values -/

inductive Value where
  | null
  | bool (b : Bool)
  | number (n : Number)
  | string (s : String)
  | array (items : List Value)
  | object (fields : List (String × Value))

/-- Property access on a parsed object: a repeated key has the value written last. -/
def field (key : String) : Value → Option Value
  | .object fields => fields.reverse.lookup key
  | _ => none

/-! ## Writing -/

def hexDigit (n : Nat) : Char := if n < 10 then Char.ofNat (48 + n) else Char.ofNat (87 + n)

def escapeChar (c : Char) : List Char :=
  if c = '"' then ['\\', '"']
  else if c = '\\' then ['\\', '\\']
  else if c.toNat = 8 then ['\\', 'b']
  else if c.toNat = 9 then ['\\', 't']
  else if c.toNat = 10 then ['\\', 'n']
  else if c.toNat = 12 then ['\\', 'f']
  else if c.toNat = 13 then ['\\', 'r']
  else if c.toNat < 32 then ['\\', 'u', '0', '0', hexDigit (c.toNat / 16), hexDigit (c.toNat % 16)]
  else [c]

/-- The text of a string after its opening quote. -/
def stringTail (s : List Char) : List Char := s.flatMap escapeChar ++ ['"']

mutual
/-- `JSON.stringify`. -/
def stringify : Value → List Char
  | .null => ['n', 'u', 'l', 'l']
  | .bool true => ['t', 'r', 'u', 'e']
  | .bool false => ['f', 'a', 'l', 's', 'e']
  | .number n => n.text
  | .string s => '"' :: stringTail s.toList
  | .array [] => ['[', ']']
  | .array (v :: vs) => '[' :: (stringify v ++ itemsTail vs)
  | .object [] => ['{', '}']
  | .object ((k, v) :: fs) => '{' :: '"' :: (stringTail k.toList ++ ':' :: (stringify v ++ fieldsTail fs))

/-- The rest of an array after an item. -/
def itemsTail : List Value → List Char
  | [] => [']']
  | v :: vs => ',' :: (stringify v ++ itemsTail vs)

/-- The rest of an object after a field. -/
def fieldsTail : List (String × Value) → List Char
  | [] => ['}']
  | (k, v) :: fs => ',' :: '"' :: (stringTail k.toList ++ ':' :: (stringify v ++ fieldsTail fs))
end

/-! ## Reading -/

def isSpace (c : Char) : Bool := c == ' ' || c == '\t' || c == '\n' || c == '\r'

def skipSpace (s : List Char) : List Char := s.dropWhile isSpace

def hexValue (c : Char) : Option Nat :=
  if '0' ≤ c ∧ c ≤ '9' then some (c.toNat - 48)
  else if 'a' ≤ c ∧ c ≤ 'f' then some (c.toNat - 87)
  else if 'A' ≤ c ∧ c ≤ 'F' then some (c.toNat - 55)
  else none

/-- The code unit of `\uXXXX`, after the `u`. -/
def hexUnit : List Char → Option (Nat × List Char)
  | a :: b :: c :: d :: rest =>
    match hexValue a, hexValue b, hexValue c, hexValue d with
    | some w, some x, some y, some z => some (4096 * w + 256 * x + 16 * y + z, rest)
    | _, _, _, _ => none
  | _ => none

/-- The character a `\u` escape denotes, after the `u`; a high surrogate takes the low surrogate
that follows it. -/
def unicodeEscape (s : List Char) : Option (Char × List Char) :=
  match hexUnit s with
  | none => none
  | some (u, rest) =>
    if 0xD800 ≤ u ∧ u < 0xDC00 then
      match rest with
      | '\\' :: 'u' :: more =>
        match hexUnit more with
        | some (l, rest') =>
          if 0xDC00 ≤ l ∧ l < 0xE000 then
            some (Char.ofNat (0x10000 + 1024 * (u - 0xD800) + (l - 0xDC00)), rest')
          else some ('\uFFFD', rest)
        | none => some ('\uFFFD', rest)
      | _ => some ('\uFFFD', rest)
    else if 0xDC00 ≤ u ∧ u < 0xE000 then some ('\uFFFD', rest)
    else some (Char.ofNat u, rest)

/-- The character an escape denotes, after the backslash. -/
def unescape : List Char → Option (Char × List Char)
  | [] => none
  | c :: rest =>
    if c = '"' then some ('"', rest)
    else if c = '\\' then some ('\\', rest)
    else if c = '/' then some ('/', rest)
    else if c = 'b' then some ('\x08', rest)
    else if c = 't' then some ('\t', rest)
    else if c = 'n' then some ('\n', rest)
    else if c = 'f' then some ('\x0c', rest)
    else if c = 'r' then some ('\r', rest)
    else if c = 'u' then unicodeEscape rest
    else none

/-- The characters of a string after its opening quote, and what follows the closing quote. -/
def parseChars : Nat → List Char → Option (List Char × List Char)
  | 0, _ => none
  | _ + 1, [] => none
  | n + 1, c :: s =>
    if c = '"' then some ([], s)
    else if c = '\\' then
      match unescape s with
      | none => none
      | some (d, s') => (parseChars n s').map fun p => (d :: p.1, p.2)
    else if c.toNat < 32 then none
    else (parseChars n s).map fun p => (c :: p.1, p.2)

def parseString (s : List Char) : Option (String × List Char) :=
  (parseChars (s.length + 1) s).map fun p => (String.ofList p.1, p.2)

def stripPrefix : List Char → List Char → Option (List Char)
  | [], s => some s
  | _ :: _, [] => none
  | p :: ps, c :: s => if p = c then stripPrefix ps s else none

def parseWord (s : List Char) : Option (Value × List Char) :=
  match stripPrefix ['n', 'u', 'l', 'l'] s with
  | some r => some (.null, r)
  | none =>
    match stripPrefix ['t', 'r', 'u', 'e'] s with
    | some r => some (.bool true, r)
    | none => (stripPrefix ['f', 'a', 'l', 's', 'e'] s).map fun r => (.bool false, r)

mutual
/-- One value at the start of the text, which holds no leading space. -/
def parseValue : Nat → List Char → Option (Value × List Char)
  | 0, _ => none
  | _ + 1, [] => none
  | n + 1, c :: s =>
    if c = '"' then (parseString s).map fun p => (.string p.1, p.2)
    else if c = '[' then
      match skipSpace s with
      | [] => none
      | d :: s' =>
        if d = ']' then some (.array [], s')
        else
          match parseValue n (d :: s') with
          | none => none
          | some (v, r) => (parseItems n r).map fun p => (.array (v :: p.1), p.2)
    else if c = '{' then
      match skipSpace s with
      | [] => none
      | d :: s' =>
        if d = '}' then some (.object [], s')
        else
          match parseField n (d :: s') with
          | none => none
          | some (f, r) => (parseFields n r).map fun p => (.object (f :: p.1), p.2)
    else if isNumberChar c then (scanNumber (c :: s)).map fun p => (.number p.1, p.2)
    else parseWord (c :: s)

def parseItems : Nat → List Char → Option (List Value × List Char)
  | 0, _ => none
  | n + 1, s =>
    match skipSpace s with
    | [] => none
    | c :: r =>
      if c = ']' then some ([], r)
      else if c = ',' then
        match parseValue n (skipSpace r) with
        | none => none
        | some (v, r') => (parseItems n r').map fun p => (v :: p.1, p.2)
      else none

/-- A field `"key" : value`. -/
def parseField : Nat → List Char → Option ((String × Value) × List Char)
  | 0, _ => none
  | _ + 1, [] => none
  | n + 1, c :: s =>
    if c = '"' then
      match parseString s with
      | none => none
      | some (k, r) =>
        match skipSpace r with
        | [] => none
        | d :: r' => if d = ':' then (parseValue n (skipSpace r')).map fun p => ((k, p.1), p.2) else none
    else none

def parseFields : Nat → List Char → Option (List (String × Value) × List Char)
  | 0, _ => none
  | n + 1, s =>
    match skipSpace s with
    | [] => none
    | c :: r =>
      if c = '}' then some ([], r)
      else if c = ',' then
        match parseField n (skipSpace r) with
        | none => none
        | some (f, r') => (parseFields n r').map fun p => (f :: p.1, p.2)
      else none
end

/-- `JSON.parse`: one value with nothing but space around it. `none` is the `SyntaxError`. -/
def parse (text : List Char) : Option Value :=
  match parseValue (text.length + 1) (skipSpace text) with
  | some (v, rest) => if skipSpace rest = [] then some v else none
  | none => none

/-! ## Integers -/

def digitChar (n : Nat) : Char := Char.ofNat (48 + n)

/-- The decimal digits of a number, most significant first; any `fuel > n` is enough. -/
def natDigits : Nat → Nat → List Char
  | 0, _ => []
  | fuel + 1, n => if n < 10 then [digitChar n] else natDigits fuel (n / 10) ++ [digitChar (n % 10)]

def intText : Int → List Char
  | .ofNat n => natDigits (n + 1) n
  | .negSucc n => '-' :: natDigits (n + 2) (n + 1)

def digitValue (c : Char) : Nat := c.toNat - 48

def readNat (s : List Char) : Option Nat :=
  if s ≠ [] ∧ s.all Char.isDigit then some (s.foldl (fun a c => 10 * a + digitValue c) 0) else none

def readInt : List Char → Option Int
  | [] => none
  | c :: s => if c = '-' then (readNat s).map fun n => -(n : Int) else (readNat (c :: s)).map Int.ofNat

theorem isDigit_digitChar {n : Nat} (h : n < 10) : (digitChar n).isDigit = true := by
  interval_cases n <;> decide

theorem digitValue_digitChar {n : Nat} (h : n < 10) : digitValue (digitChar n) = n := by
  interval_cases n <;> decide

theorem NumberState.foldl_natDigits {st : NumberState} (hst : st = .start ∨ st = .minus) :
    ∀ {fuel n : Nat}, n < fuel → (natDigits fuel n).foldl step st = if n = 0 then .zero else .int := by
  intro fuel
  induction fuel with
  | zero => intro n h; omega
  | succ fuel ih =>
    intro n h
    by_cases hn : n < 10
    · rw [natDigits, if_pos hn]
      rcases hst with rfl | rfl <;> interval_cases n <;> decide
    · rw [natDigits, if_neg hn, List.foldl_append, ih (by omega), if_neg (by omega), if_neg (by omega)]
      simp [step, isDigit_digitChar (Nat.mod_lt n (by decide : 0 < 10))]

theorem isNumber_intText (i : Int) : isNumber (intText i) = true := by
  cases i with
  | ofNat n =>
    rw [isNumber, intText, foldl_natDigits (.inl rfl) (Nat.lt_succ_self n)]
    split <;> rfl
  | negSucc n =>
    have h := foldl_natDigits (.inr rfl) (Nat.lt_succ_self (n + 1))
    rw [isNumber, intText, List.foldl_cons, show start.step '-' = .minus from rfl, h]
    rfl

def Number.ofInt (i : Int) : Number := ⟨intText i, isNumber_intText i⟩

def Value.int (i : Int) : Value := .number (.ofInt i)

def Value.toInt? : Value → Option Int
  | .number n => readInt n.text
  | _ => none

theorem all_isDigit_natDigits :
    ∀ {fuel n : Nat}, n < fuel → natDigits fuel n ≠ [] ∧ (natDigits fuel n).all Char.isDigit = true := by
  intro fuel
  induction fuel with
  | zero => intro n h; omega
  | succ fuel ih =>
    intro n h
    by_cases hn : n < 10
    · simp [natDigits, hn, isDigit_digitChar hn]
    · obtain ⟨_, hall⟩ := ih (n := n / 10) (by omega)
      rw [natDigits, if_neg hn]
      simp [hall, isDigit_digitChar (Nat.mod_lt n (by decide : 0 < 10))]

theorem foldl_digitValue_natDigits : ∀ {fuel n : Nat}, n < fuel →
      (natDigits fuel n).foldl (fun a c => 10 * a + digitValue c) 0 = n := by
  intro fuel
  induction fuel with
  | zero => intro n h; omega
  | succ fuel ih =>
    intro n h
    by_cases hn : n < 10
    · simp [natDigits, hn, digitValue_digitChar hn]
    · rw [natDigits, if_neg hn, List.foldl_append, ih (by omega)]
      simp only [List.foldl_cons, List.foldl_nil, digitValue_digitChar (Nat.mod_lt n (by decide : 0 < 10))]
      omega

theorem readNat_natDigits {fuel n : Nat} (h : n < fuel) : readNat (natDigits fuel n) = some n := by
  rw [readNat, if_pos (all_isDigit_natDigits h), foldl_digitValue_natDigits h]

@[simp] theorem toInt?_int (i : Int) : (Value.int i).toInt? = some i := by
  cases i with
  | ofNat n =>
    obtain ⟨hne, hall⟩ := all_isDigit_natDigits (Nat.lt_succ_self n)
    have hr := readNat_natDigits (Nat.lt_succ_self n)
    cases hd : natDigits (n + 1) n with
    | nil => exact absurd hd hne
    | cons c s =>
      have hc : c ≠ '-' := by
        rintro rfl
        rw [hd] at hall
        simp at hall
      simp only [Value.int, Value.toInt?, Number.ofInt, intText, hd, readInt, if_neg hc]
      rw [← hd, hr]
      rfl
  | negSucc n =>
    simp [Value.int, Value.toInt?, Number.ofInt, intText, readInt, readNat_natDigits, Int.negSucc_eq]

example : (parse "[ 1, -2.5e3 ,\"x\\n\", null]".toList).map stringify =
    some "[1,-2.5e3,\"x\\n\",null]".toList := by decide

end Json
end RePrime
