import RePrime.Lib.JsonRoundTrip

/-!
# RePrime.Lib.JsonPrefix

Cut JSON texts. What the parser reads of a text it reads of any longer text, so the text of an object
that is cut before its end is no JSON text, also when U+FFFD stands for a cut character.

* `parseValue_suffix`, `parseValue_extend`: what is left after a value, and what is left of a longer
  text.
* `parse_prefix`, `parse_cut`: cut objects.
-/

namespace RePrime
namespace Json

open List Option

/-! ## What is left of a text -/

theorem skipSpace_suffix (s : List Char) : skipSpace s <:+ s := dropWhile_suffix _

variable {s : List Char}

theorem suffix_of_skipSpace {t : List Char} {c : Char} (h : skipSpace s = c :: t) : t <:+ s :=
  (suffix_cons c t).trans (h ▸ skipSpace_suffix s)

variable {r : List Char}

theorem hexUnit_suffix {u : Nat} (h : hexUnit s = some (u, r)) : r <:+ s := by
  unfold hexUnit at h
  split at h
  · split at h
    · cases h
      exact ⟨[_, _, _, _], rfl⟩
    · cases h
  · cases h

variable {d : Char}

theorem unicodeEscape_suffix (h : unicodeEscape s = some (d, r)) :
    r <:+ s := by
  unfold unicodeEscape at h
  cases hu : hexUnit s with
  | none =>
    rw [hu] at h
    cases h
  | some p =>
    obtain ⟨u, rest⟩ := p
    have hrest := hexUnit_suffix hu
    simp only [hu] at h
    split at h
    · split at h
      · rename_i more
        split at h
        · rename_i l rest' hl
          have hmore : more <:+ '\\' :: 'u' :: more := ⟨['\\', 'u'], rfl⟩
          split at h
          · simp only [Option.some.injEq, Prod.mk.injEq] at h
            rw [← h.2]
            exact (hexUnit_suffix hl).trans (hmore.trans hrest)
          · simp only [Option.some.injEq, Prod.mk.injEq] at h
            rwa [← h.2]
        · simp only [Option.some.injEq, Prod.mk.injEq] at h
          rwa [← h.2]
      · simp only [Option.some.injEq, Prod.mk.injEq] at h
        rwa [← h.2]
    · split at h
      · simp only [Option.some.injEq, Prod.mk.injEq] at h
        rwa [← h.2]
      · simp only [Option.some.injEq, Prod.mk.injEq] at h
        rwa [← h.2]

theorem unescape_suffix (h : unescape s = some (d, r)) : r <:+ s := by
  cases s with
  | nil => cases h
  | cons c rest =>
    have hrest : rest <:+ c :: rest := suffix_cons c rest
    by_cases hu : c = 'u'
    · subst hu
      exact (unicodeEscape_suffix h).trans hrest
    · simp only [unescape, if_neg hu] at h
      split_ifs at h
      all_goals
        cases h
        exact hrest

theorem parseChars_suffix : ∀ (n : Nat) {s l r : List Char}, parseChars n s = some (l, r) → r <:+ s
  | 0, _, _, _, h => by cases h
  | _ + 1, [], _, _, h => by cases h
  | n + 1, c :: s, l, r, h => by
    rw [parseChars] at h
    split_ifs at h with hq hb hc
    · cases h
      exact suffix_cons _ _
    · cases hd : unescape s with
      | none =>
        rw [hd] at h
        cases h
      | some p =>
        rw [hd] at h
        obtain ⟨t, ht, he⟩ := map_eq_some_iff.1 h
        cases he
        exact (parseChars_suffix n ht).trans ((unescape_suffix hd).trans (suffix_cons _ _))
    · obtain ⟨t, ht, he⟩ := map_eq_some_iff.1 h
      cases he
      exact (parseChars_suffix n ht).trans (suffix_cons _ _)

theorem parseString_suffix {k : String} (h : parseString s = some (k, r)) :
    r <:+ s := by
  obtain ⟨t, ht, he⟩ := map_eq_some_iff.1 h
  cases he
  exact parseChars_suffix _ ht

variable {p : List Char}

theorem stripPrefix_eq : ∀ {s r : List Char}, stripPrefix p s = some r → s = p ++ r := by
  induction p with
  | nil =>
    intro s r h
    cases h
    rfl
  | cons c p ih =>
    intro s r h
    cases s with
    | nil => cases h
    | cons d s =>
      rw [stripPrefix] at h
      split_ifs at h with hc
      rw [hc, ih h]
      rfl

variable {v : Value}

theorem parseWord_eq (h : parseWord s = some (v, r)) :
    (v = .null ∧ s = ['n', 'u', 'l', 'l'] ++ r) ∨ (v = .bool true ∧ s = ['t', 'r', 'u', 'e'] ++ r) ∨
      (v = .bool false ∧ s = ['f', 'a', 'l', 's', 'e'] ++ r) := by
  unfold parseWord at h
  split at h
  · rename_i hs
    cases h
    exact .inl ⟨rfl, stripPrefix_eq hs⟩
  · split at h
    · rename_i hs
      cases h
      exact .inr (.inl ⟨rfl, stripPrefix_eq hs⟩)
    · obtain ⟨t, ht, he⟩ := map_eq_some_iff.1 h
      cases he
      exact .inr (.inr ⟨rfl, stripPrefix_eq ht⟩)

theorem scanNumber_suffix {m : Number} (h : scanNumber s = some (m, r)) : r <:+ s := by
  unfold scanNumber at h
  split at h
  · cases h
    exact dropWhile_suffix _
  · cases h

mutual
theorem parseValue_suffix : ∀ (n : Nat) {s r : List Char} {v : Value},
    parseValue n s = some (v, r) → r <:+ s
  | 0, _, _, _, h => by simp [parseValue] at h
  | _ + 1, [], _, _, h => by simp [parseValue] at h
  | n + 1, c :: s, r, v, h => by
    rw [parseValue] at h
    split_ifs at h with hq hb hc hn
    · obtain ⟨p, hp, he⟩ := map_eq_some_iff.1 h
      cases he
      exact (parseString_suffix hp).trans (suffix_cons _ _)
    · split at h
      · cases h
      · rename_i d s' hs
        split_ifs at h
        · cases h
          exact (suffix_of_skipSpace hs).trans (suffix_cons _ _)
        · split at h
          · cases h
          · rename_i w r' hw
            obtain ⟨p, hp, he⟩ := map_eq_some_iff.1 h
            cases he
            have hval := parseValue_suffix n hw
            rw [← hs] at hval
            exact (parseItems_suffix n hp).trans (hval.trans ((skipSpace_suffix s).trans (suffix_cons _ _)))
    · split at h
      · cases h
      · rename_i d s' hs
        split_ifs at h
        · cases h
          exact (suffix_of_skipSpace hs).trans (suffix_cons _ _)
        · split at h
          · cases h
          · rename_i f r' hf
            obtain ⟨p, hp, he⟩ := map_eq_some_iff.1 h
            cases he
            have hfield := parseField_suffix n hf
            rw [← hs] at hfield
            obtain ⟨t, ht⟩ := parseFields_end n hp
            have hfields : p.2 <:+ r' := ⟨t ++ ['}'], by simp [ht]⟩
            exact hfields.trans (hfield.trans ((skipSpace_suffix s).trans (suffix_cons _ _)))
    · obtain ⟨p, hp, he⟩ := map_eq_some_iff.1 h
      cases he
      exact scanNumber_suffix hp
    · obtain ⟨-, hs⟩ | ⟨-, hs⟩ | ⟨-, hs⟩ := parseWord_eq h
      · exact ⟨_, hs.symm⟩
      · exact ⟨_, hs.symm⟩
      · exact ⟨_, hs.symm⟩

theorem parseItems_suffix : ∀ (n : Nat) {s r : List Char} {vs : List Value},
    parseItems n s = some (vs, r) → r <:+ s
  | 0, _, _, _, h => by simp [parseItems] at h
  | n + 1, s, r, vs, h => by
    rw [parseItems] at h
    split at h
    · cases h
    · rename_i c t hs
      have ht := suffix_of_skipSpace hs
      split_ifs at h
      · cases h
        exact ht
      · split at h
        · cases h
        · rename_i w r' hw
          obtain ⟨p, hp, he⟩ := map_eq_some_iff.1 h
          cases he
          exact (parseItems_suffix n hp).trans
            ((parseValue_suffix n hw).trans ((skipSpace_suffix t).trans ht))

theorem parseField_suffix : ∀ (n : Nat) {s r : List Char} {f : String × Value},
    parseField n s = some (f, r) → r <:+ s
  | 0, _, _, _, h => by simp [parseField] at h
  | _ + 1, [], _, _, h => by simp [parseField] at h
  | n + 1, c :: s, r, f, h => by
    rw [parseField] at h
    split_ifs at h
    split at h
    · cases h
    · rename_i k r' hk
      split at h
      · cases h
      · rename_i d t hs
        split_ifs at h
        obtain ⟨p, hp, he⟩ := map_eq_some_iff.1 h
        cases he
        exact (parseValue_suffix n hp).trans ((skipSpace_suffix t).trans
          ((suffix_of_skipSpace hs).trans ((parseString_suffix hk).trans (suffix_cons _ _))))

theorem parseFields_end : ∀ (n : Nat) {s r : List Char} {fs : List (String × Value)},
    parseFields n s = some (fs, r) → ∃ t, s = t ++ '}' :: r
  | 0, _, _, _, h => by simp [parseFields] at h
  | n + 1, s, r, fs, h => by
    rw [parseFields] at h
    split at h
    · cases h
    · rename_i c t hs
      obtain ⟨space, hspace⟩ := skipSpace_suffix s
      rw [hs] at hspace
      split_ifs at h with hbrace hcomma
      · cases h
        exact ⟨space, by rw [← hspace, hbrace]⟩
      · split at h
        · cases h
        · rename_i f r' hf
          obtain ⟨p, hp, he⟩ := map_eq_some_iff.1 h
          cases he
          obtain ⟨u, hu⟩ := parseFields_end n hp
          obtain ⟨x, hx⟩ := (parseField_suffix n hf).trans ((skipSpace_suffix t).trans
            ((suffix_cons c t).trans ⟨space, hspace⟩))
          exact ⟨x ++ u, by rw [← hx, hu, append_assoc]⟩
end

variable {n : Nat}

theorem parseValue_object_end
    (h : parseValue n ('{' :: s) = some (v, r)) : ∃ t, s = t ++ '}' :: r := by
  cases n with
  | zero => simp [parseValue] at h
  | succ n =>
    rw [parseValue, if_neg (by decide), if_neg (by decide), if_pos rfl] at h
    obtain ⟨space, hspace⟩ := skipSpace_suffix s
    split at h
    · cases h
    · rename_i d s' hs
      rw [hs] at hspace
      split_ifs at h with hbrace
      · cases h
        exact ⟨space, by rw [← hspace, hbrace]⟩
      · split at h
        · cases h
        · rename_i f r' hf
          obtain ⟨p, hp, he⟩ := map_eq_some_iff.1 h
          cases he
          obtain ⟨u, hu⟩ := parseFields_end n hp
          obtain ⟨x, hx⟩ := (parseField_suffix n hf).trans ⟨space, hspace⟩
          exact ⟨x ++ u, by rw [← hx, hu, append_assoc]⟩

/-! ## Longer texts -/

theorem skipSpace_append {t : List Char} {c : Char} (h : skipSpace s = c :: t) (q : List Char) :
    skipSpace (s ++ q) = c :: (t ++ q) := by
  unfold skipSpace at h ⊢
  rw [dropWhile_append, h]
  rfl

theorem hexUnit_extend {u : Nat} (h : hexUnit s = some (u, r)) (q : List Char) :
    hexUnit (s ++ q) = some (u, r ++ q) := by
  unfold hexUnit at h
  split at h
  · rename_i a b c d rest
    split at h
    · rename_i w x y z ha hb hc hd
      cases h
      simp [hexUnit, ha, hb, hc, hd]
    · cases h
  · cases h

/-- A high surrogate may take what follows it: the rest of the string decides whether it does. -/
theorem unicodeEscape_extend {p : List Char × List Char}
    (h : unicodeEscape s = some (d, r)) (hrest : parseChars n r = some p) (q : List Char) :
    unicodeEscape (s ++ q) = some (d, r ++ q) := by
  unfold unicodeEscape at h
  cases hu : hexUnit s with
  | none =>
    rw [hu] at h
    cases h
  | some p' =>
    obtain ⟨u, rest⟩ := p'
    have hq := hexUnit_extend hu q
    simp only [hu] at h
    unfold unicodeEscape
    simp only [hq]
    split at h
    · rename_i hhigh
      rw [if_pos hhigh]
      split at h
      · rename_i more
        cases hl : hexUnit more with
        | none =>
          simp only [hl, Option.some.injEq, Prod.mk.injEq] at h
          rw [← h.2] at hrest
          cases n with
          | zero => cases hrest
          | succ n =>
            rw [parseChars, if_neg (by decide), if_pos rfl] at hrest
            simp [unescape, unicodeEscape, hl] at hrest
        | some p' =>
          obtain ⟨l, rest'⟩ := p'
          have hl' := hexUnit_extend hl q
          simp only [hl] at h
          simp only [cons_append, hl']
          split at h
          · rename_i hlow
            simp only [Option.some.injEq, Prod.mk.injEq] at h
            rw [if_pos hlow, h.1, ← h.2]
          · rename_i hlow
            simp only [Option.some.injEq, Prod.mk.injEq] at h
            rw [if_neg hlow, ← h.1, ← h.2]
            rfl
      · rename_i hnot
        simp only [Option.some.injEq, Prod.mk.injEq] at h
        obtain ⟨rfl, rfl⟩ := h
        split
        · rename_i more hmore
          cases rest with
          | nil => cases n <;> cases hrest
          | cons a rest =>
            cases rest with
            | nil =>
              cases n with
              | zero => cases hrest
              | succ n =>
                simp only [cons_append, nil_append, List.cons.injEq] at hmore
                rw [parseChars, hmore.1, if_neg (by decide), if_pos rfl] at hrest
                cases hrest
            | cons b rest =>
              simp only [cons_append, List.cons.injEq] at hmore
              exact absurd (by rw [hmore.1, hmore.2.1]) (hnot rest)
        · rfl
    · rename_i hhigh
      rw [if_neg hhigh]
      split at h
      · rename_i hlow
        simp only [Option.some.injEq, Prod.mk.injEq] at h
        rw [if_pos hlow, ← h.1, ← h.2]
      · rename_i hlow
        simp only [Option.some.injEq, Prod.mk.injEq] at h
        rw [if_neg hlow, h.1, ← h.2]

theorem unescape_extend {p : List Char × List Char}
    (h : unescape s = some (d, r)) (hrest : parseChars n r = some p) (q : List Char) :
    unescape (s ++ q) = some (d, r ++ q) := by
  cases s with
  | nil => cases h
  | cons c rest =>
    by_cases hu : c = 'u'
    · subst hu
      exact unicodeEscape_extend h hrest q
    · simp only [cons_append, unescape, if_neg hu] at h ⊢
      split_ifs at h ⊢
      all_goals
        cases h
        rfl

theorem parseChars_extend : ∀ (n : Nat) {s l r : List Char}, parseChars n s = some (l, r) →
    ∀ m : Nat, n ≤ m → ∀ q : List Char, parseChars m (s ++ q) = some (l, r ++ q)
  | 0, _, _, _, h => by cases h
  | _ + 1, [], _, _, h => by cases h
  | n + 1, c :: s, l, r, h => by
    intro m hm q
    obtain ⟨m, rfl⟩ : ∃ k, m = k + 1 := ⟨m - 1, by omega⟩
    have hm : n ≤ m := by omega
    rw [cons_append, parseChars]
    rw [parseChars] at h
    split_ifs at h ⊢
    · cases h
      rfl
    · cases hd : unescape s with
      | none =>
        rw [hd] at h
        cases h
      | some p =>
        obtain ⟨d, s'⟩ := p
        rw [hd] at h
        obtain ⟨t, ht, he⟩ := map_eq_some_iff.1 h
        cases he
        rw [unescape_extend hd ht q]
        simp only [parseChars_extend n ht m hm q, map_some]
    · obtain ⟨t, ht, he⟩ := map_eq_some_iff.1 h
      cases he
      rw [parseChars_extend n ht m hm q]
      rfl

theorem parseString_extend {k : String} (h : parseString s = some (k, r))
    (q : List Char) : parseString (s ++ q) = some (k, r ++ q) := by
  obtain ⟨t, ht, he⟩ := map_eq_some_iff.1 h
  cases he
  have hlen : s.length + 1 ≤ (s ++ q).length + 1 := by simp
  unfold parseString
  rw [parseChars_extend _ ht _ hlen q]
  rfl

theorem scanNumber_extend {m : Number} (h : scanNumber s = some (m, r)) (hr : r ≠ [])
    (q : List Char) : scanNumber (s ++ q) = some (m, r ++ q) := by
  unfold scanNumber at h
  split at h
  · rename_i hvalid
    cases h
    have hlen : (s.takeWhile isNumberChar).length ≠ s.length := by
      intro hl
      have happ := congrArg List.length (@List.takeWhile_append_dropWhile _ isNumberChar s)
      rw [length_append] at happ
      exact hr (length_eq_zero_iff.1 (by omega))
    have htake : (s ++ q).takeWhile isNumberChar = s.takeWhile isNumberChar := by
      rw [takeWhile_append, if_neg hlen]
    have hdrop : (s ++ q).dropWhile isNumberChar = s.dropWhile isNumberChar ++ q := by
      rw [dropWhile_append, if_neg (by simpa using hr)]
    have hvalid' : isNumber ((s ++ q).takeWhile isNumberChar) = true := by rwa [htake]
    rw [scanNumber, dif_pos hvalid']
    simp only [htake, hdrop]
  · cases h

theorem parseWord_extend (h : parseWord s = some (v, r)) (q : List Char) :
    parseWord (s ++ q) = some (v, r ++ q) := by
  obtain ⟨rfl, rfl⟩ | ⟨rfl, rfl⟩ | ⟨rfl, rfl⟩ := parseWord_eq h
  · simp [parseWord, stripPrefix]
  · simp [parseWord, stripPrefix]
  · simp [parseWord, stripPrefix]

mutual
/-- A value that is read of a text is read of a longer one, unless it is a number at the end. -/
theorem parseValue_extend : ∀ (n : Nat) {s r : List Char} {v : Value}, parseValue n s = some (v, r) →
    (r = [] → ∀ c ∈ s.head?, isNumberChar c = false) →
    ∀ m : Nat, n ≤ m → ∀ q : List Char, parseValue m (s ++ q) = some (v, r ++ q)
  | 0, _, _, _, h, _ => by simp [parseValue] at h
  | _ + 1, [], _, _, h, _ => by simp [parseValue] at h
  | n + 1, c :: s, r, v, h, hnum => by
    intro m hm q
    obtain ⟨m, rfl⟩ : ∃ k, m = k + 1 := ⟨m - 1, by omega⟩
    have hm : n ≤ m := by omega
    rw [cons_append, parseValue]
    rw [parseValue] at h
    split_ifs at h ⊢ with hq hb hc hn
    · obtain ⟨p, hp, he⟩ := map_eq_some_iff.1 h
      cases he
      rw [parseString_extend hp q]
      rfl
    · split at h
      · cases h
      · rename_i d s' hs
        rw [skipSpace_append hs q]
        simp only []
        split_ifs at h ⊢
        · cases h
          rfl
        · split at h
          · cases h
          · rename_i w r' hw
            obtain ⟨p, hp, he⟩ := map_eq_some_iff.1 h
            cases he
            have hne : r' = [] → ∀ c ∈ (d :: s').head?, isNumberChar c = false := by
              rintro rfl
              cases n <;> simp [parseItems, skipSpace] at hp
            have hval := parseValue_extend n hw hne m hm q
            rw [cons_append] at hval
            simp only [hval, parseItems_extend n hp m hm q, map_some]
    · split at h
      · cases h
      · rename_i d s' hs
        rw [skipSpace_append hs q]
        simp only []
        split_ifs at h ⊢
        · cases h
          rfl
        · split at h
          · cases h
          · rename_i f r' hf
            obtain ⟨p, hp, he⟩ := map_eq_some_iff.1 h
            cases he
            have hne : r' ≠ [] := by
              rintro rfl
              cases n <;> simp [parseFields, skipSpace] at hp
            have hval := parseField_extend n hf hne m hm q
            rw [cons_append] at hval
            simp only [hval, parseFields_extend n hp m hm q, map_some]
    · obtain ⟨p, hp, he⟩ := map_eq_some_iff.1 h
      cases he
      have hne : p.2 ≠ [] := by
        intro hnil
        have hfalse := hnum hnil c rfl
        rw [hn] at hfalse
        cases hfalse
      have hscan := scanNumber_extend hp hne q
      rw [cons_append] at hscan
      rw [hscan]
      rfl
    · have hword := parseWord_extend h q
      rwa [cons_append] at hword

theorem parseItems_extend : ∀ (n : Nat) {s r : List Char} {vs : List Value},
    parseItems n s = some (vs, r) →
    ∀ m : Nat, n ≤ m → ∀ q : List Char, parseItems m (s ++ q) = some (vs, r ++ q)
  | 0, _, _, _, h => by simp [parseItems] at h
  | n + 1, s, r, vs, h => by
    intro m hm q
    obtain ⟨m, rfl⟩ : ∃ k, m = k + 1 := ⟨m - 1, by omega⟩
    have hm : n ≤ m := by omega
    rw [parseItems]
    rw [parseItems] at h
    split at h
    · cases h
    · rename_i c t hs
      rw [skipSpace_append hs q]
      simp only []
      split_ifs at h ⊢
      · cases h
        rfl
      · split at h
        · cases h
        · rename_i w r' hw
          obtain ⟨p, hp, he⟩ := map_eq_some_iff.1 h
          cases he
          have hne : r' ≠ [] := by
            rintro rfl
            cases n <;> simp [parseItems, skipSpace] at hp
          cases ht : skipSpace t with
          | nil =>
            rw [ht] at hw
            cases n <;> simp [parseValue] at hw
          | cons d t' =>
            rw [ht] at hw
            have hval := parseValue_extend n hw (fun hnil => absurd hnil hne) m hm q
            rw [cons_append] at hval
            rw [skipSpace_append ht q]
            simp only [hval, parseItems_extend n hp m hm q, map_some]

theorem parseField_extend : ∀ (n : Nat) {s r : List Char} {f : String × Value},
    parseField n s = some (f, r) → r ≠ [] →
    ∀ m : Nat, n ≤ m → ∀ q : List Char, parseField m (s ++ q) = some (f, r ++ q)
  | 0, _, _, _, h, _ => by simp [parseField] at h
  | _ + 1, [], _, _, h, _ => by simp [parseField] at h
  | n + 1, c :: s, r, f, h, hr => by
    intro m hm q
    obtain ⟨m, rfl⟩ : ∃ k, m = k + 1 := ⟨m - 1, by omega⟩
    have hm : n ≤ m := by omega
    rw [cons_append, parseField]
    rw [parseField] at h
    split_ifs at h ⊢
    split at h
    · cases h
    · rename_i k r' hk
      rw [parseString_extend hk q]
      simp only []
      split at h
      · cases h
      · rename_i d t hs
        rw [skipSpace_append hs q]
        simp only []
        split_ifs at h ⊢
        obtain ⟨p, hp, he⟩ := map_eq_some_iff.1 h
        cases he
        cases ht : skipSpace t with
        | nil =>
          rw [ht] at hp
          cases n <;> simp [parseValue] at hp
        | cons d' t' =>
          rw [ht] at hp
          have hval := parseValue_extend n hp (fun hnil => absurd hnil hr) m hm q
          rw [cons_append] at hval
          rw [skipSpace_append ht q, hval]
          rfl

theorem parseFields_extend : ∀ (n : Nat) {s r : List Char} {fs : List (String × Value)},
    parseFields n s = some (fs, r) →
    ∀ m : Nat, n ≤ m → ∀ q : List Char, parseFields m (s ++ q) = some (fs, r ++ q)
  | 0, _, _, _, h => by simp [parseFields] at h
  | n + 1, s, r, fs, h => by
    intro m hm q
    obtain ⟨m, rfl⟩ : ∃ k, m = k + 1 := ⟨m - 1, by omega⟩
    have hm : n ≤ m := by omega
    rw [parseFields]
    rw [parseFields] at h
    split at h
    · cases h
    · rename_i c t hs
      rw [skipSpace_append hs q]
      simp only []
      split_ifs at h ⊢
      · cases h
        rfl
      · split at h
        · cases h
        · rename_i f r' hf
          obtain ⟨p, hp, he⟩ := map_eq_some_iff.1 h
          cases he
          have hne : r' ≠ [] := by
            rintro rfl
            cases n <;> simp [parseFields, skipSpace] at hp
          cases ht : skipSpace t with
          | nil =>
            rw [ht] at hf
            cases n <;> simp [parseField] at hf
          | cons d t' =>
            rw [ht] at hf
            have hval := parseField_extend n hf hne m hm q
            rw [cons_append] at hval
            rw [skipSpace_append ht q]
            simp only [hval, parseFields_extend n hp m hm q, map_some]
end

/-! ## Cut objects -/

theorem stringify_object (fields : List (String × Value)) :
    ∃ s, stringify (.object fields) = '{' :: s := by
  cases fields with
  | nil | cons => exact ⟨_, rfl⟩

theorem skipSpace_eq_nil (h : skipSpace s = []) : ∀ c ∈ s, isSpace c = true := by
  intro c hc
  unfold skipSpace at h
  rw [dropWhile_eq_nil_iff] at h
  exact h c hc

/-- The text of an object, cut before its end, is no JSON text. -/
theorem parse_prefix {fields : List (String × Value)}
    (hp : p <+: stringify (.object fields)) (hne : p ≠ stringify (.object fields)) : parse p = none := by
  obtain ⟨q, hq⟩ := hp
  obtain ⟨s, hs⟩ := stringify_object fields
  cases p with
  | nil => rfl
  | cons c p =>
    obtain rfl : c = '{' := by
      rw [hs] at hq
      exact (List.cons.inj hq).1
    unfold parse
    rw [skipSpace_cons p (by decide)]
    split
    · rename_i v rest hv
      refine if_neg fun hspace => ?_
      -- the whole text would leave what was cut
      have hlen : ('{' :: p).length + 1 ≤ (stringify (.object fields)).length + 1 := by
        rw [← hq]
        simp
      have hwhole := parseValue_extend _ hv (fun _ c hc => by cases hc; decide) _ hlen q
      have hobject := parseValue_stringify (.object fields)
        ((stringify (.object fields)).length + 1) [] (by omega) stops_nil
      rw [hq] at hwhole
      rw [append_nil, hwhole] at hobject
      have hrest : rest ++ q = [] := congrArg Prod.snd (Option.some.inj hobject)
      rw [append_eq_nil_iff] at hrest
      rw [hrest.2, append_nil] at hq
      exact absurd hq hne
    · rfl

theorem parse_cut {fields : List (String × Value)}
    (hp : p <+: stringify (.object fields)) : parse (p ++ ['\uFFFD']) = none := by
  obtain ⟨q, hq⟩ := hp
  obtain ⟨s, hs⟩ := stringify_object fields
  cases p with
  | nil => decide
  | cons c p =>
    obtain rfl : c = '{' := by
      rw [hs] at hq
      exact (List.cons.inj hq).1
    unfold parse
    rw [cons_append, skipSpace_cons _ (by decide)]
    split
    · rename_i v rest hv
      refine if_neg fun hspace => ?_
      obtain ⟨t, ht⟩ := parseValue_object_end hv
      have hlast := congrArg List.getLast? ht
      rw [getLast?_concat, getLast?_append] at hlast
      cases hrest : rest.getLast? with
      | none =>
        rw [getLast?_eq_none_iff] at hrest
        rw [hrest] at hlast
        simp at hlast
      | some d =>
        have hd := skipSpace_eq_nil hspace d (mem_of_getLast? hrest)
        rw [getLast?_cons, hrest] at hlast
        cases hlast
        exact absurd hd (by decide)
    · rfl

end Json
end RePrime
