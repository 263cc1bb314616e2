import RePrime.Lib.JsText

/-!
# RePrime.Lib.JsonText

JSON texts over UTF-16 code units as a grammar, with what may stand in a string literal as a parameter.

* `Text lit kind s`: `s` is a value, a list of elements or of members, or a whole text, with literals in `lit`.
* `Strict`: the literals of JSON. `Json`: a JSON text.
* `Text.rewrite`, `Text.fixed`: rules for a map that goes through a text and changes at most its literals.
-/

namespace RePrime
namespace JsonText

open List
open JsText (ofAscii)

abbrev quote : UInt16 := 0x22
abbrev backslash : UInt16 := 0x5c

/-! ### Literals -/

/-- A space, a tab or a line end. -/
def isBlank (c : UInt16) : Bool := c == 0x20 || c == 9 || c == 10 || c == 13

def isDigit (c : UInt16) : Bool := 0x30 ≤ c && c ≤ 0x39

def isHex (c : UInt16) : Bool := isDigit c || (0x41 ≤ c && c ≤ 0x46) || (0x61 ≤ c && c ≤ 0x66)

def isControl (c : UInt16) : Bool := c ≤ 0x1f

/-- `"`, `\`, `/`, `b`, `f`, `n`, `r`, `t`. -/
def isSimpleEscape (c : UInt16) : Bool :=
  c == quote || c == backslash || c == 0x2f || c == 0x62 || c == 0x66 || c == 0x6e || c == 0x72 || c == 0x74

/-- The content of a string literal of JSON. -/
inductive Strict : JsString → Prop
  | nil : Strict []
  | plain {c : UInt16} {s : JsString} :
    c ≠ quote → c ≠ backslash → isControl c = false → Strict s → Strict (c :: s)
  | escape {c : UInt16} {s : JsString} : isSimpleEscape c = true → Strict s → Strict (backslash :: c :: s)
  | unicode {a b c d : UInt16} {s : JsString} : isHex a = true → isHex b = true → isHex c = true →
    isHex d = true → Strict s → Strict (backslash :: 0x75 :: a :: b :: c :: d :: s)

/-! ### Texts -/

def Blank (s : JsString) : Prop := ∀ c ∈ s, isBlank c = true

def Digits (s : JsString) : Prop := s ≠ [] ∧ ∀ c ∈ s, isDigit c = true

structure IsNumber (s : JsString) : Prop where
  parts : ∃ minus int frac exp, s = minus ++ int ++ frac ++ exp ∧ (minus = [] ∨ minus = [0x2d]) ∧
    (int = [0x30] ∨ Digits int ∧ int.head? ≠ some 0x30) ∧ (frac = [] ∨ ∃ d, frac = 0x2e :: d ∧ Digits d) ∧
    (exp = [] ∨ ∃ e sign d, exp = e :: (sign ++ d) ∧ (e = 0x65 ∨ e = 0x45) ∧
      (sign = [] ∨ sign = [0x2b] ∨ sign = [0x2d]) ∧ Digits d)

inductive Kind where
  | value
  | elements
  | members
  | text

def quoted (s : JsString) : JsString := quote :: (s ++ [quote])

inductive Text (lit : JsString → Prop) : Kind → JsString → Prop
  | null : Text lit .value (ofAscii "null")
  | true : Text lit .value (ofAscii "true")
  | false : Text lit .value (ofAscii "false")
  | number {n : JsString} : IsNumber n → Text lit .value n
  | string {s : JsString} : lit s → Text lit .value (quoted s)
  | emptyArray {w : JsString} : Blank w → Text lit .value ([0x5b] ++ (w ++ [0x5d]))
  | array {e : JsString} : Text lit .elements e → Text lit .value ([0x5b] ++ (e ++ [0x5d]))
  | emptyObject {w : JsString} : Blank w → Text lit .value ([0x7b] ++ (w ++ [0x7d]))
  | object {m : JsString} : Text lit .members m → Text lit .value ([0x7b] ++ (m ++ [0x7d]))
  | element {a v b : JsString} : Blank a → Text lit .value v → Blank b → Text lit .elements (a ++ (v ++ b))
  | elements {a v b rest : JsString} : Blank a → Text lit .value v → Blank b → Text lit .elements rest →
    Text lit .elements (a ++ (v ++ (b ++ ([0x2c] ++ rest))))
  | member {a s b c v d : JsString} : Blank a → lit s → Blank b → Blank c → Text lit .value v → Blank d →
    Text lit .members (a ++ (quoted s ++ (b ++ ([0x3a] ++ (c ++ (v ++ d))))))
  | members {a s b c v d rest : JsString} : Blank a → lit s → Blank b → Blank c → Text lit .value v → Blank d →
    Text lit .members rest →
    Text lit .members (a ++ (quoted s ++ (b ++ ([0x3a] ++ (c ++ (v ++ (d ++ ([0x2c] ++ rest))))))))
  | text {a v b : JsString} : Blank a → Text lit .value v → Blank b → Text lit .text (a ++ (v ++ b))

/-- A JSON text. -/
def Json (s : JsString) : Prop := Text Strict .text s

/-! ### No quote outside literals -/

def NoQuote (s : JsString) : Prop := ∀ c ∈ s, c ≠ quote

instance : DecidablePred NoQuote := fun s => inferInstanceAs (Decidable (∀ c ∈ s, c ≠ quote))

theorem NoQuote.append {a b : JsString} (ha : NoQuote a) (hb : NoQuote b) : NoQuote (a ++ b) := by
  intro c hc
  exact (mem_append.mp hc).elim (ha c) (hb c)

theorem Blank.noQuote {s : JsString} (h : Blank s) : NoQuote s := by
  rintro c hc rfl
  exact absurd (h _ hc) (by decide)

theorem Digits.noQuote {s : JsString} (h : Digits s) : NoQuote s := by
  rintro c hc rfl
  exact absurd (h.2 _ hc) (by decide)

theorem noQuote_nil : NoQuote [] := fun _ hc => by cases hc

theorem noQuote_singleton {c : UInt16} (h : c ≠ quote) : NoQuote [c] := by
  intro d hd
  rwa [mem_singleton.mp hd]

theorem IsNumber.noQuote {n : JsString} (h : IsNumber n) : NoQuote n := by
  obtain ⟨minus, int, frac, exp, rfl, hminus, hint, hfrac, hexp⟩ := h.parts
  refine ((NoQuote.append ?_ ?_).append ?_).append ?_
  · rcases hminus with rfl | rfl
    · exact noQuote_nil
    · exact noQuote_singleton (by decide)
  · rcases hint with rfl | hint
    · exact noQuote_singleton (by decide)
    · exact hint.1.noQuote
  · rcases hfrac with rfl | ⟨d, rfl, hd⟩
    · exact noQuote_nil
    · exact (noQuote_singleton (by decide)).append hd.noQuote
  · rcases hexp with rfl | ⟨e, sign, d, rfl, he, hsign, hd⟩
    · exact noQuote_nil
    · have he : NoQuote [e] := noQuote_singleton (by rcases he with rfl | rfl <;> decide)
      have hsign : NoQuote sign := by
        rcases hsign with rfl | rfl | rfl
        · exact noQuote_nil
        · exact noQuote_singleton (by decide)
        · exact noQuote_singleton (by decide)
      exact he.append (hsign.append hd.noQuote)

/-! ### Maps over a text -/

section Maps

variable {lit lit' : JsString → Prop} {f : JsString → JsString}

/-- A map that keeps what is outside literals, and keeps literals, keeps the text. -/
theorem Text.fixed (hplain : ∀ c t, c ≠ quote → f (c :: t) = c :: f t)
    (hlit : ∀ s t, lit s → f (quoted s ++ t) = quoted s ++ f t) {k : Kind} {s : JsString} (h : Text lit k s) :
    ∀ t, f (s ++ t) = s ++ f t := by
  have hkeep : ∀ {s}, NoQuote s → ∀ t, f (s ++ t) = s ++ f t := by
    intro s hs t
    induction s with
    | nil => rfl
    | cons c s ih =>
      rw [cons_append, hplain c _ (hs c mem_cons_self), ih fun d hd => hs d (mem_cons_of_mem _ hd)]
      rfl
  induction h with
  | number hn => exact hkeep hn.noQuote
  | string hs => exact fun t => hlit _ t hs
  | emptyArray hw =>
    exact hkeep ((noQuote_singleton (by decide)).append (hw.noQuote.append (noQuote_singleton (by decide))))
  | emptyObject hw =>
    exact hkeep ((noQuote_singleton (by decide)).append (hw.noQuote.append (noQuote_singleton (by decide))))
  | array _ ih =>
    intro t
    simp only [append_assoc]
    rw [hkeep (noQuote_singleton (by decide)), ih, hkeep (noQuote_singleton (by decide))]
  | object _ ih =>
    intro t
    simp only [append_assoc]
    rw [hkeep (noQuote_singleton (by decide)), ih, hkeep (noQuote_singleton (by decide))]
  | element ha _ hb ih =>
    intro t
    simp only [append_assoc]
    rw [hkeep ha.noQuote, ih, hkeep hb.noQuote]
  | elements ha _ hb _ ih ihrest =>
    intro t
    simp only [append_assoc]
    rw [hkeep ha.noQuote, ih, hkeep hb.noQuote, hkeep (noQuote_singleton (by decide)), ihrest]
  | member ha hs hb hc _ hd ih =>
    intro t
    simp only [append_assoc]
    rw [hkeep ha.noQuote, hlit _ _ hs, hkeep hb.noQuote, hkeep (noQuote_singleton (by decide)), hkeep hc.noQuote, ih,
      hkeep hd.noQuote]
  | members ha hs hb hc _ hd _ ih ihrest =>
    intro t
    simp only [append_assoc]
    rw [hkeep ha.noQuote, hlit _ _ hs, hkeep hb.noQuote, hkeep (noQuote_singleton (by decide)), hkeep hc.noQuote, ih,
      hkeep hd.noQuote, hkeep (noQuote_singleton (by decide)), ihrest]
  | text ha _ hb ih =>
    intro t
    simp only [append_assoc]
    rw [hkeep ha.noQuote, ih, hkeep hb.noQuote]
  | _ => exact hkeep (by decide)

/-- A map that keeps what is outside literals and takes literals to others takes a text to one with these, as far as
`ok` holds of what is left. -/
theorem Text.rewrite (f : JsString → JsString) (ok : JsString → Prop)
    (hplain : ∀ c t, c ≠ quote → f (c :: t) = c :: f t ∧ (ok (c :: t) → ok t))
    (hlit : ∀ s t, lit s → ok (quoted s ++ t) → ∃ s', lit' s' ∧ f (quoted s ++ t) = quoted s' ++ f t ∧ ok t)
    {k : Kind} {s : JsString} (h : Text lit k s) :
    ∀ t, ok (s ++ t) → ∃ s', Text lit' k s' ∧ f (s ++ t) = s' ++ f t ∧ ok t := by
  have hkeep : ∀ {s}, NoQuote s → ∀ t, ok (s ++ t) → f (s ++ t) = s ++ f t ∧ ok t := by
    intro s hs t
    induction s with
    | nil => exact fun hok => ⟨rfl, hok⟩
    | cons c s ih =>
      intro hok
      obtain ⟨heq, hnext⟩ := hplain c (s ++ t) (hs c mem_cons_self)
      obtain ⟨heq', hok'⟩ := ih (fun d hd => hs d (mem_cons_of_mem _ hd)) (hnext hok)
      rw [cons_append, heq, heq']
      exact ⟨rfl, hok'⟩
  have hwhole : ∀ {k : Kind} {s}, NoQuote s → Text lit' k s → ∀ t, ok (s ++ t) →
      ∃ s', Text lit' k s' ∧ f (s ++ t) = s' ++ f t ∧ ok t := by
    intro k s hs htext t hok
    exact ⟨s, htext, hkeep hs t hok⟩
  have hone : ∀ c, c ≠ quote → ∀ t, ok ([c] ++ t) → f ([c] ++ t) = [c] ++ f t ∧ ok t :=
    fun c hc => hkeep (noQuote_singleton hc)
  induction h with
  | null => exact hwhole (by decide) .null
  | true => exact hwhole (by decide) .true
  | false => exact hwhole (by decide) .false
  | number hn => exact hwhole hn.noQuote (.number hn)
  | string hs =>
    intro t hok
    obtain ⟨s', hs', heq, hok'⟩ := hlit _ t hs hok
    exact ⟨_, .string hs', heq, hok'⟩
  | emptyArray hw =>
    exact hwhole ((noQuote_singleton (by decide)).append (hw.noQuote.append (noQuote_singleton (by decide))))
      (.emptyArray hw)
  | emptyObject hw =>
    exact hwhole ((noQuote_singleton (by decide)).append (hw.noQuote.append (noQuote_singleton (by decide))))
      (.emptyObject hw)
  | array _ ih =>
    intro t hok
    simp only [append_assoc] at hok ⊢
    obtain ⟨h1, hok⟩ := hone 0x5b (by decide) _ hok
    obtain ⟨e', he', h2, hok⟩ := ih _ hok
    obtain ⟨h3, hok⟩ := hone 0x5d (by decide) _ hok
    refine ⟨_, .array he', ?_, hok⟩
    rw [h1, h2, h3]
    simp only [append_assoc]
  | object _ ih =>
    intro t hok
    simp only [append_assoc] at hok ⊢
    obtain ⟨h1, hok⟩ := hone 0x7b (by decide) _ hok
    obtain ⟨m', hm', h2, hok⟩ := ih _ hok
    obtain ⟨h3, hok⟩ := hone 0x7d (by decide) _ hok
    refine ⟨_, .object hm', ?_, hok⟩
    rw [h1, h2, h3]
    simp only [append_assoc]
  | element ha _ hb ih =>
    intro t hok
    simp only [append_assoc] at hok ⊢
    obtain ⟨h1, hok⟩ := hkeep ha.noQuote _ hok
    obtain ⟨v', hv', h2, hok⟩ := ih _ hok
    obtain ⟨h3, hok⟩ := hkeep hb.noQuote _ hok
    refine ⟨_, .element ha hv' hb, ?_, hok⟩
    rw [h1, h2, h3]
    simp only [append_assoc]
  | elements ha _ hb _ ih ihrest =>
    intro t hok
    simp only [append_assoc] at hok ⊢
    obtain ⟨h1, hok⟩ := hkeep ha.noQuote _ hok
    obtain ⟨v', hv', h2, hok⟩ := ih _ hok
    obtain ⟨h3, hok⟩ := hkeep hb.noQuote _ hok
    obtain ⟨h4, hok⟩ := hone 0x2c (by decide) _ hok
    obtain ⟨r', hr', h5, hok⟩ := ihrest _ hok
    refine ⟨_, .elements ha hv' hb hr', ?_, hok⟩
    rw [h1, h2, h3, h4, h5]
    simp only [append_assoc]
  | member ha hs hb hc _ hd ih =>
    intro t hok
    simp only [append_assoc] at hok ⊢
    obtain ⟨h1, hok⟩ := hkeep ha.noQuote _ hok
    obtain ⟨s', hs', h2, hok⟩ := hlit _ _ hs hok
    obtain ⟨h3, hok⟩ := hkeep hb.noQuote _ hok
    obtain ⟨h4, hok⟩ := hone 0x3a (by decide) _ hok
    obtain ⟨h5, hok⟩ := hkeep hc.noQuote _ hok
    obtain ⟨v', hv', h6, hok⟩ := ih _ hok
    obtain ⟨h7, hok⟩ := hkeep hd.noQuote _ hok
    refine ⟨_, .member ha hs' hb hc hv' hd, ?_, hok⟩
    rw [h1, h2, h3, h4, h5, h6, h7]
    simp only [append_assoc]
  | members ha hs hb hc _ hd _ ih ihrest =>
    intro t hok
    simp only [append_assoc] at hok ⊢
    obtain ⟨h1, hok⟩ := hkeep ha.noQuote _ hok
    obtain ⟨s', hs', h2, hok⟩ := hlit _ _ hs hok
    obtain ⟨h3, hok⟩ := hkeep hb.noQuote _ hok
    obtain ⟨h4, hok⟩ := hone 0x3a (by decide) _ hok
    obtain ⟨h5, hok⟩ := hkeep hc.noQuote _ hok
    obtain ⟨v', hv', h6, hok⟩ := ih _ hok
    obtain ⟨h7, hok⟩ := hkeep hd.noQuote _ hok
    obtain ⟨h8, hok⟩ := hone 0x2c (by decide) _ hok
    obtain ⟨r', hr', h9, hok⟩ := ihrest _ hok
    refine ⟨_, .members ha hs' hb hc hv' hd hr', ?_, hok⟩
    rw [h1, h2, h3, h4, h5, h6, h7, h8, h9]
    simp only [append_assoc]
  | text ha _ hb ih =>
    intro t hok
    simp only [append_assoc] at hok ⊢
    obtain ⟨h1, hok⟩ := hkeep ha.noQuote _ hok
    obtain ⟨v', hv', h2, hok⟩ := ih _ hok
    obtain ⟨h3, hok⟩ := hkeep hb.noQuote _ hok
    refine ⟨_, .text ha hv' hb, ?_, hok⟩
    rw [h1, h2, h3]
    simp only [append_assoc]

end Maps

end JsonText
end RePrime
