import RePrime.Lib.Json

/-!
# RePrime.Lib.JsonRoundTrip

What is written is read back: `parse (stringify v) = some v`, and a written text holds no
character below U+0020, so it fits on one line.

* `parseChars_stringTail`: the characters of a string, by induction on them, one escape at a time.
* `parseValue_stringify`: values, by induction on the value together with the rest of an array
  and of an object. The text after a value must not continue a number (`Stops`); the fuel is the
  length of the text.
-/

namespace RePrime
namespace Json

open List

/-! ## Strings -/

theorem hexValue_hexDigit {n : Nat} (h : n < 16) : hexValue (hexDigit n) = some n := by
  interval_cases n <;> decide

variable {c : Char}

theorem unescape_control (hc : c.toNat < 32) (t : List Char) :
    unescape ('u' :: '0' :: '0' :: hexDigit (c.toNat / 16) :: hexDigit (c.toNat % 16) :: t) =
      some (c, t) := by
  have h1 := hexValue_hexDigit (show c.toNat / 16 < 16 by omega)
  have h2 := hexValue_hexDigit (show c.toNat % 16 < 16 by omega)
  have h0 : hexValue '0' = some 0 := by decide
  have hsum : 16 * (c.toNat / 16) + c.toNat % 16 = c.toNat := by omega
  have hlow : ¬ (0xD800 ≤ c.toNat ∧ c.toNat < 0xDC00) := by omega
  have hhigh : ¬ (0xDC00 ≤ c.toNat ∧ c.toNat < 0xE000) := by omega
  simp [unescape, unicodeEscape, hexUnit, h0, h1, h2, hsum, hlow, hhigh, Char.ofNat_toNat]

theorem eq_of_toNat_eq {d : Char} (h : c.toNat = d.toNat) : c = d := by
  rw [← Char.ofNat_toNat c, ← Char.ofNat_toNat d, h]

theorem parseChars_escapeChar (n : Nat) (c : Char) (t : List Char) :
    parseChars (n + 1) (escapeChar c ++ t) = (parseChars n t).map fun p => (c :: p.1, p.2) := by
  unfold escapeChar
  split
  · subst_vars; simp [parseChars, unescape]
  split
  · subst_vars; simp [parseChars, unescape]
  split
  · rename_i h; rw [eq_of_toNat_eq (d := '\x08') h]; simp [parseChars, unescape]
  split
  · rename_i h; rw [eq_of_toNat_eq (d := '\t') h]; simp [parseChars, unescape]
  split
  · rename_i h; rw [eq_of_toNat_eq (d := '\n') h]; simp [parseChars, unescape]
  split
  · rename_i h; rw [eq_of_toNat_eq (d := '\x0c') h]; simp [parseChars, unescape]
  split
  · rename_i h; rw [eq_of_toNat_eq (d := '\r') h]; simp [parseChars, unescape]
  split
  · rename_i h
    simp only [cons_append, nil_append, parseChars]
    rw [unescape_control h]
    simp
  · rename_i hq hb _ _ _ _ _ hc
    simp [parseChars, hq, hb, hc]

theorem length_le_length_flatMap_escapeChar (s : List Char) :
    s.length ≤ (s.flatMap escapeChar).length := by
  induction s with
  | nil => simp
  | cons c s ih =>
    have hc : 1 ≤ (escapeChar c).length := by unfold escapeChar; split_ifs <;> simp
    simp only [flatMap_cons, length_cons, length_append]
    omega

theorem parseChars_stringTail (rest : List Char) (s : List Char) :
    ∀ n, s.length < n → parseChars n (stringTail s ++ rest) = some (s, rest) := by
  induction s with
  | nil =>
    intro n hn
    cases n with
    | zero => simp at hn
    | succ n => simp [stringTail, parseChars]
  | cons c s ih =>
    intro n hn
    cases n with
    | zero => simp at hn
    | succ n =>
      have hs := ih n (by simpa using hn)
      simp only [stringTail, flatMap_cons, append_assoc] at hs ⊢
      rw [parseChars_escapeChar, hs]
      rfl

theorem parseString_stringTail (s : String) (rest : List Char) :
    parseString (stringTail s.toList ++ rest) = some (s, rest) := by
  have hlen := length_le_length_flatMap_escapeChar s.toList
  have hfuel : s.toList.length < (stringTail s.toList ++ rest).length + 1 := by
    simp only [stringTail, length_append]
    omega
  rw [parseString, parseChars_stringTail rest s.toList _ hfuel]
  simp

/-! ## Numbers -/

/-- `rest` does not continue a number. -/
def Stops (rest : List Char) : Prop := ∀ c ∈ rest.head?, isNumberChar c = false

theorem stops_nil : Stops [] := by simp [Stops]

theorem stops_cons {r : List Char} (h : isNumberChar c = false) : Stops (c :: r) := by
  simpa [Stops] using h

theorem stops_itemsTail (vs : List Value) (r : List Char) : Stops (itemsTail vs ++ r) := by
  cases vs <;> exact stops_cons (by decide)

theorem stops_fieldsTail (fs : List (String × Value)) (r : List Char) :
    Stops (fieldsTail fs ++ r) := by
  cases fs <;> exact stops_cons (by decide)

theorem scanNumber_text (n : Number) {rest : List Char} (h : Stops rest) :
    scanNumber (n.text ++ rest) = some (n, rest) := by
  have hall : ∀ c ∈ n.text, isNumberChar c = true := fun c hc => n.isNumberChar_of_mem hc
  have htake : (n.text ++ rest).takeWhile isNumberChar = n.text := by
    rw [takeWhile_append_of_pos hall]
    cases rest with
    | nil => simp
    | cons c r => simp [h c rfl]
  have hdrop : (n.text ++ rest).dropWhile isNumberChar = rest := by
    rw [dropWhile_append_of_pos hall]
    cases rest with
    | nil => simp
    | cons c r => simp [h c rfl]
  have hvalid : isNumber ((n.text ++ rest).takeWhile isNumberChar) = true := by
    rw [htake]; exact n.valid
  rw [scanNumber, dif_pos hvalid]
  simp only [htake, hdrop]

/-! ## Values -/

/-- A written value starts with a character that is neither a space nor a closing bracket. -/
theorem stringify_head (v : Value) :
    ∃ c s, stringify v = c :: s ∧ isSpace c = false ∧ c ≠ ']' := by
  cases v with
  | null => exact ⟨_, _, rfl, by decide, by decide⟩
  | bool b => cases b <;> exact ⟨_, _, rfl, by decide, by decide⟩
  | number n =>
    cases h : n.text with
    | nil => exact absurd h n.text_ne_nil
    | cons c s =>
      have hc : isNumberChar c = true := n.isNumberChar_of_mem (by rw [h]; simp)
      refine ⟨c, s, by rw [stringify, h], ?_, ?_⟩
      · by_contra hsp
        simp only [isSpace, Bool.not_eq_false, Bool.or_eq_true, beq_iff_eq] at hsp
        rcases hsp with ((rfl | rfl) | rfl) | rfl <;> exact absurd hc (by decide)
      · rintro rfl; exact absurd hc (by decide)
  | string s => exact ⟨_, _, rfl, by decide, by decide⟩
  | array vs => cases vs <;> exact ⟨_, _, rfl, by decide, by decide⟩
  | object fs =>
    cases fs with
    | nil => exact ⟨_, _, rfl, by decide, by decide⟩
    | cons f fs => obtain ⟨k, v⟩ := f; exact ⟨_, _, rfl, by decide, by decide⟩

theorem skipSpace_cons (s : List Char) (h : isSpace c = false) :
    skipSpace (c :: s) = c :: s := by simp [skipSpace, h]

theorem skipSpace_stringify (v : Value) (r : List Char) :
    skipSpace (stringify v ++ r) = stringify v ++ r := by
  obtain ⟨c, s, h, hc, _⟩ := stringify_head v
  simp [h, skipSpace, hc]

theorem number_head {n : Number} {s : List Char} (h : n.text = c :: s) :
    isNumberChar c = true ∧ c ≠ '"' ∧ c ≠ '[' ∧ c ≠ '{' := by
  have hc : isNumberChar c = true := n.isNumberChar_of_mem (by rw [h]; simp)
  refine ⟨hc, ?_, ?_, ?_⟩ <;> rintro rfl <;> exact absurd hc (by decide)

/-- A key and its value, without the comma or brace before it. -/
def fieldText (k : String) (v : Value) : List Char :=
  '"' :: (stringTail k.toList ++ ':' :: stringify v)

variable {k : String} {v : Value}

theorem parseField_fieldText {n : Nat} {r : List Char}
    (hv : parseValue n (stringify v ++ r) = some (v, r)) :
    parseField (n + 1) (fieldText k v ++ r) = some ((k, v), r) := by
  have hskip := skipSpace_cons (c := ':') (stringify v ++ r) (by decide)
  simp [fieldText, parseField, parseString_stringTail, hskip, skipSpace_stringify, hv]

mutual
theorem parseValue_stringify : ∀ (v : Value) (n : Nat) (r : List Char),
    (stringify v).length ≤ n → Stops r → parseValue n (stringify v ++ r) = some (v, r)
  | v, 0, _, h, _ => by
    obtain ⟨c, s, hcs, _⟩ := stringify_head v
    simp [hcs] at h
  | .null, n + 1, r, _, _ => by simp [stringify, parseValue, parseWord, stripPrefix, isNumberChar]
  | .bool true, n + 1, r, _, _ => by
    simp [stringify, parseValue, parseWord, stripPrefix, isNumberChar]
  | .bool false, n + 1, r, _, _ => by
    simp [stringify, parseValue, parseWord, stripPrefix, isNumberChar]
  | .number m, n + 1, r, _, hr => by
    have hs := scanNumber_text m hr
    cases hm : m.text with
    | nil => exact absurd hm m.text_ne_nil
    | cons c s =>
      obtain ⟨hc, h1, h2, h3⟩ := number_head hm
      simp only [hm, cons_append] at hs
      simp [stringify, hm, parseValue, h1, h2, h3, hc, hs]
  | .string s, n + 1, r, _, _ => by simp [stringify, parseValue, parseString_stringTail]
  | .array [], n + 1, r, _, _ => by simp [stringify, parseValue, skipSpace, isSpace]
  | .array (v :: vs), n + 1, r, h, hr => by
    simp only [stringify, length_cons, length_append] at h
    have hv := parseValue_stringify v n (itemsTail vs ++ r) (by omega) (stops_itemsTail vs r)
    have hvs := parseItems_itemsTail vs n r (by omega) hr
    obtain ⟨c, s, hcs, hsp, hbr⟩ := stringify_head v
    have hskip := skipSpace_stringify v (itemsTail vs ++ r)
    rw [hcs] at hv hskip
    simp only [cons_append] at hv hskip
    simp [stringify, parseValue, hcs, hskip, hbr, hv, hvs]
  | .object [], n + 1, r, _, _ => by simp [stringify, parseValue, skipSpace, isSpace]
  | .object ((k, v) :: fs), n + 1, r, h, hr => by
    simp only [stringify, length_cons, length_append] at h
    cases n with
    | zero => omega
    | succ n =>
      have hv := parseValue_stringify v n (fieldsTail fs ++ r) (by omega) (stops_fieldsTail fs r)
      have hf := parseField_fieldText (k := k) hv
      have hfs := parseFields_fieldsTail fs (n + 1) r (by omega) hr
      have hskip := skipSpace_cons (c := '"')
        (stringTail k.toList ++ ':' :: (stringify v ++ (fieldsTail fs ++ r))) (by decide)
      simp only [fieldText, cons_append, append_assoc] at hf
      simp [stringify, parseValue, hskip, hf, hfs]

theorem parseItems_itemsTail : ∀ (vs : List Value) (n : Nat) (r : List Char),
    (itemsTail vs).length ≤ n → Stops r → parseItems n (itemsTail vs ++ r) = some (vs, r)
  | [], 0, _, h, _ => by simp [itemsTail] at h
  | [], n + 1, r, _, _ => by simp [itemsTail, parseItems, skipSpace, isSpace]
  | v :: vs, 0, _, h, _ => by simp [itemsTail] at h
  | v :: vs, n + 1, r, h, hr => by
    simp only [itemsTail, length_cons, length_append] at h
    have hv := parseValue_stringify v n (itemsTail vs ++ r) (by omega) (stops_itemsTail vs r)
    have hvs := parseItems_itemsTail vs n r (by omega) hr
    have hskip := skipSpace_cons (c := ',') (stringify v ++ (itemsTail vs ++ r)) (by decide)
    simp [itemsTail, parseItems, hskip, skipSpace_stringify, hv, hvs]

theorem parseFields_fieldsTail : ∀ (fs : List (String × Value)) (n : Nat) (r : List Char),
    (fieldsTail fs).length ≤ n → Stops r → parseFields n (fieldsTail fs ++ r) = some (fs, r)
  | [], 0, _, h, _ => by simp [fieldsTail] at h
  | [], n + 1, r, _, _ => by simp [fieldsTail, parseFields, skipSpace, isSpace]
  | (k, v) :: fs, 0, _, h, _ => by simp [fieldsTail] at h
  | (k, v) :: fs, n + 1, r, h, hr => by
    simp only [fieldsTail, length_cons, length_append] at h
    cases n with
    | zero => omega
    | succ n =>
      have hv := parseValue_stringify v n (fieldsTail fs ++ r) (by omega) (stops_fieldsTail fs r)
      have hf := parseField_fieldText (k := k) hv
      have hfs := parseFields_fieldsTail fs (n + 1) r (by omega) hr
      have hcomma := skipSpace_cons (c := ',')
        ('"' :: (stringTail k.toList ++ ':' :: (stringify v ++ (fieldsTail fs ++ r)))) (by decide)
      have hquote := skipSpace_cons (c := '"')
        (stringTail k.toList ++ ':' :: (stringify v ++ (fieldsTail fs ++ r))) (by decide)
      simp only [fieldText, cons_append, append_assoc] at hf
      simp only [fieldsTail, cons_append, append_assoc]
      rw [parseFields]
      simp [hcomma, hquote, hf, hfs]
end

/-- **Round trip.** -/
theorem parse_stringify (v : Value) : parse (stringify v) = some v := by
  have hskip : skipSpace (stringify v) = stringify v := by
    simpa using skipSpace_stringify v []
  have h := parseValue_stringify v ((stringify v).length + 1) [] (by omega) stops_nil
  rw [append_nil] at h
  rw [parse, hskip, h]
  simp [skipSpace]

theorem stringify_injective {w : Value} (h : stringify v = stringify w) : v = w := by
  have hv := parse_stringify v
  rw [h, parse_stringify w] at hv
  exact (Option.some.inj hv).symm

instance : DecidableEq Value := fun v w =>
  decidable_of_iff (stringify v = stringify w) ⟨stringify_injective, congrArg stringify⟩

/-! ## Written text fits on one line -/

theorem escapeChar_printable (c : Char) : ∀ d ∈ escapeChar c, 32 ≤ d.toNat := by
  have hhex : ∀ n, n < 16 → 32 ≤ (hexDigit n).toNat := by
    intro n hn; interval_cases n <;> decide
  intro d hd
  unfold escapeChar at hd
  split_ifs at hd <;> simp only [mem_cons, not_mem_nil, or_false] at hd
  all_goals first
    | (rcases hd with rfl | rfl <;> decide)
    | (rcases hd with rfl | rfl | rfl | rfl | rfl | rfl <;>
        first | decide | exact hhex _ (by omega))
    | (subst hd; omega)

theorem stringTail_printable (s : List Char) : ∀ d ∈ stringTail s, 32 ≤ d.toNat := by
  intro d hd
  simp only [stringTail, mem_append, mem_flatMap, mem_singleton] at hd
  rcases hd with ⟨c, _, hd⟩ | rfl
  · exact escapeChar_printable c d hd
  · decide

theorem isNumberChar_printable (h : isNumberChar c = true) : 32 ≤ c.toNat := by
  simp only [isNumberChar, Bool.or_eq_true, beq_iff_eq] at h
  rcases h with ((((h | rfl) | rfl) | rfl) | rfl) | rfl
  · simp only [Char.isDigit, Bool.and_eq_true, decide_eq_true_eq] at h
    have : (48 : UInt32).toNat ≤ c.val.toNat := UInt32.le_iff_toNat_le.1 h.1
    show 32 ≤ c.val.toNat
    have h48 : (48 : UInt32).toNat = 48 := rfl
    omega
  all_goals decide

theorem printable_of_all {s : List Char} (h : s.all (fun d => decide (32 ≤ d.toNat)) = true) :
    ∀ d ∈ s, 32 ≤ d.toNat := by
  simpa using h

mutual
theorem stringify_printable : ∀ (v : Value), ∀ d ∈ stringify v, 32 ≤ d.toNat
  | .null => printable_of_all (by simp only [stringify]; rfl)
  | .bool true => printable_of_all (by simp only [stringify]; rfl)
  | .bool false => printable_of_all (by simp only [stringify]; rfl)
  | .number n => by
    intro d hd
    exact isNumberChar_printable (n.isNumberChar_of_mem (by simpa [stringify] using hd))
  | .string s => by
    intro d hd
    simp only [stringify, mem_cons] at hd
    rcases hd with rfl | hd
    · decide
    · exact stringTail_printable _ d hd
  | .array [] => printable_of_all (by simp only [stringify]; rfl)
  | .array (v :: vs) => by
    intro d hd
    simp only [stringify, mem_cons, mem_append] at hd
    rcases hd with rfl | hd | hd
    · decide
    · exact stringify_printable v d hd
    · exact itemsTail_printable vs d hd
  | .object [] => printable_of_all (by simp only [stringify]; rfl)
  | .object ((k, v) :: fs) => by
    intro d hd
    simp only [stringify, mem_cons, mem_append] at hd
    rcases hd with rfl | rfl | hd | rfl | hd | hd
    · decide
    · decide
    · exact stringTail_printable _ d hd
    · decide
    · exact stringify_printable v d hd
    · exact fieldsTail_printable fs d hd

theorem itemsTail_printable : ∀ (vs : List Value), ∀ d ∈ itemsTail vs, 32 ≤ d.toNat
  | [] => printable_of_all (by simp only [itemsTail]; rfl)
  | v :: vs => by
    intro d hd
    simp only [itemsTail, mem_cons, mem_append] at hd
    rcases hd with rfl | hd | hd
    · decide
    · exact stringify_printable v d hd
    · exact itemsTail_printable vs d hd

theorem fieldsTail_printable : ∀ (fs : List (String × Value)), ∀ d ∈ fieldsTail fs, 32 ≤ d.toNat
  | [] => printable_of_all (by simp only [fieldsTail]; rfl)
  | (k, v) :: fs => by
    intro d hd
    simp only [fieldsTail, mem_cons, mem_append] at hd
    rcases hd with rfl | rfl | hd | rfl | hd | hd
    · decide
    · decide
    · exact stringTail_printable _ d hd
    · decide
    · exact stringify_printable v d hd
    · exact fieldsTail_printable fs d hd
end

/-! ## The ends of a written value -/

/-- Visible ASCII, which no trimming removes. -/
def Graphic (c : Char) : Prop := 33 ≤ c.toNat ∧ c.toNat < 127

instance (c : Char) : Decidable (Graphic c) := inferInstanceAs (Decidable (_ ∧ _))

theorem isNumberChar_graphic (h : isNumberChar c = true) : Graphic c := by
  simp only [isNumberChar, Bool.or_eq_true, beq_iff_eq] at h
  rcases h with ((((h | rfl) | rfl) | rfl) | rfl) | rfl
  · simp only [Char.isDigit, Bool.and_eq_true, decide_eq_true_eq] at h
    have hlo : (48 : UInt32).toNat ≤ c.val.toNat := UInt32.le_iff_toNat_le.1 h.1
    have hhi : c.val.toNat ≤ (57 : UInt32).toNat := UInt32.le_iff_toNat_le.1 h.2
    show 33 ≤ c.val.toNat ∧ c.val.toNat < 127
    have h48 : (48 : UInt32).toNat = 48 := rfl
    have h57 : (57 : UInt32).toNat = 57 := rfl
    omega
  all_goals decide

theorem itemsTail_last (vs : List Value) : ∃ s, itemsTail vs = s ++ [']'] := by
  induction vs with
  | nil => exact ⟨[], by rw [itemsTail]; rfl⟩
  | cons v vs ih =>
    obtain ⟨s, hs⟩ := ih
    exact ⟨',' :: (stringify v ++ s), by rw [itemsTail, hs]; simp⟩

theorem fieldsTail_last (fs : List (String × Value)) : ∃ s, fieldsTail fs = s ++ ['}'] := by
  induction fs with
  | nil => exact ⟨[], by rw [fieldsTail]; rfl⟩
  | cons f fs ih =>
    obtain ⟨k, v⟩ := f
    obtain ⟨s, hs⟩ := ih
    exact ⟨',' :: '"' :: (stringTail k.toList ++ ':' :: (stringify v ++ s)), by rw [fieldsTail, hs]; simp⟩

theorem stringify_first (v : Value) : ∃ c s, stringify v = c :: s ∧ Graphic c := by
  cases v with
  | null => exact ⟨_, _, rfl, by decide⟩
  | bool b => cases b <;> exact ⟨_, _, rfl, by decide⟩
  | number n =>
    cases h : n.text with
    | nil => exact absurd h n.text_ne_nil
    | cons c s => exact ⟨c, s, by rw [stringify, h], isNumberChar_graphic (n.isNumberChar_of_mem (by simp [h]))⟩
  | string s => exact ⟨_, _, rfl, by decide⟩
  | array vs => cases vs <;> exact ⟨_, _, rfl, by decide⟩
  | object fs =>
    cases fs with
    | nil => exact ⟨_, _, rfl, by decide⟩
    | cons f fs =>
      obtain ⟨k, v⟩ := f
      exact ⟨_, _, rfl, by decide⟩

theorem stringify_last (v : Value) : ∃ s c, stringify v = s ++ [c] ∧ Graphic c := by
  cases v with
  | null => exact ⟨['n', 'u', 'l'], 'l', rfl, by decide⟩
  | bool b =>
    cases b with
    | true => exact ⟨['t', 'r', 'u'], 'e', rfl, by decide⟩
    | false => exact ⟨['f', 'a', 'l', 's'], 'e', rfl, by decide⟩
  | number n =>
    obtain h | ⟨s, c, h⟩ := n.text.eq_nil_or_concat
    · exact absurd h n.text_ne_nil
    · rw [concat_eq_append] at h
      exact ⟨s, c, by rw [stringify, h], isNumberChar_graphic (n.isNumberChar_of_mem (by simp [h]))⟩
  | string s => exact ⟨'"' :: s.toList.flatMap escapeChar, '"', rfl, by decide⟩
  | array vs =>
    cases vs with
    | nil => exact ⟨['['], ']', rfl, by decide⟩
    | cons v vs =>
      obtain ⟨s, hs⟩ := itemsTail_last vs
      exact ⟨'[' :: (stringify v ++ s), ']', by rw [stringify, hs]; simp, by decide⟩
  | object fs =>
    cases fs with
    | nil => exact ⟨['{'], '}', rfl, by decide⟩
    | cons f fs =>
      obtain ⟨k, v⟩ := f
      obtain ⟨s, hs⟩ := fieldsTail_last fs
      exact ⟨'{' :: '"' :: (stringTail k.toList ++ ':' :: (stringify v ++ s)), '}', by rw [stringify, hs]; simp,
        by decide⟩

theorem stringify_ne_nil (v : Value) : stringify v ≠ [] := by
  obtain ⟨c, s, h, _⟩ := stringify_head v
  simp [h]

/-! ## Parts of a text -/

theorem infix_itemsTail {vs : List Value} (h : v ∈ vs) : stringify v <:+: itemsTail vs := by
  induction vs with
  | nil => cases h
  | cons w vs ih =>
    rw [itemsTail]
    rcases mem_cons.mp h with rfl | h
    · exact ⟨[','], itemsTail vs, by simp⟩
    · exact (ih h).trans ⟨',' :: stringify w, [], by simp⟩

theorem infix_array {vs : List Value} (h : v ∈ vs) : stringify v <:+: stringify (.array vs) := by
  cases vs with
  | nil => cases h
  | cons w vs =>
    rw [stringify]
    rcases mem_cons.mp h with rfl | h
    · exact ⟨['['], itemsTail vs, by simp⟩
    · exact (infix_itemsTail h).trans ⟨'[' :: stringify w, [], by simp⟩

theorem infix_fieldsTail {fs : List (String × Value)} (h : (k, v) ∈ fs) :
    stringify v <:+: fieldsTail fs := by
  induction fs with
  | nil => cases h
  | cons f fs ih =>
    obtain ⟨k', w⟩ := f
    rw [fieldsTail]
    rcases mem_cons.mp h with heq | h
    · cases heq
      exact ⟨',' :: '"' :: (stringTail k.toList ++ [':']), fieldsTail fs, by simp⟩
    · exact (ih h).trans ⟨',' :: '"' :: (stringTail k'.toList ++ ':' :: stringify w), [], by simp⟩

theorem infix_object {fs : List (String × Value)} (h : (k, v) ∈ fs) :
    stringify v <:+: stringify (.object fs) := by
  cases fs with
  | nil => cases h
  | cons f fs =>
    obtain ⟨k', w⟩ := f
    rw [stringify]
    rcases mem_cons.mp h with heq | h
    · cases heq
      exact ⟨'{' :: '"' :: (stringTail k.toList ++ [':']), fieldsTail fs, by simp⟩
    · exact (infix_fieldsTail h).trans ⟨'{' :: '"' :: (stringTail k'.toList ++ ':' :: stringify w), [], by simp⟩

theorem length_le_string (s : String) : s.toList.length ≤ (stringify (.string s)).length := by
  have h := length_le_length_flatMap_escapeChar s.toList
  rw [stringify, stringTail, length_cons, length_append]
  omega

end Json
end RePrime
