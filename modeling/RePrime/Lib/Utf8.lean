import Mathlib.Data.List.Basic
import Mathlib.Algebra.GroupWithZero.Nat

/-!
# RePrime.Lib.Utf8

UTF-8 text as bytes. The decoder is the one `Buffer.toString("utf8")` runs: a malformed sequence
becomes U+FFFD, and the byte that broke it starts a new one.

* `decode_encode`: written text is read back.
* `ascii_mem_encode`: a byte below `0x80` stands for its own character only, so text splits into
  lines before it is decoded.
* `decode_newline`, `decode_prefix`: lines are decoded one by one; text that is cut anywhere is read
  up to the cut, and a character that is cut becomes U+FFFD.
* `ascii_mem_decode`, `head_decode`: a character below `0x80` is read off its own byte.
-/

namespace RePrime
namespace Utf8

open List

def encodeChar (c : Char) : List UInt8 :=
  let v := c.toNat
  if v < 0x80 then [.ofNat v]
  else if v < 0x800 then [.ofNat (0xC0 + v / 64), .ofNat (0x80 + v % 64)]
  else if v < 0x10000 then
    [.ofNat (0xE0 + v / 4096), .ofNat (0x80 + v / 64 % 64), .ofNat (0x80 + v % 64)]
  else
    [.ofNat (0xF0 + v / 262144), .ofNat (0x80 + v / 4096 % 64), .ofNat (0x80 + v / 64 % 64),
      .ofNat (0x80 + v % 64)]

/-- `Buffer.from(text, "utf8")`. -/
def encode (text : List Char) : List UInt8 := text.flatMap encodeChar

def replacement : Char := '\uFFFD'

/-- Inside a sequence: how many bytes are missing, the bits read, and the range of the next byte. -/
structure DecodeState where
  needed : Nat
  codePoint : Nat
  lower : Nat
  upper : Nat

open DecodeState

def DecodeState.init : DecodeState := { needed := 0, codePoint := 0, lower := 0x80, upper := 0xBF }

def startByte (b : Nat) : List Char × DecodeState :=
  if b < 0x80 then ([Char.ofNat b], .init)
  else if 0xC2 ≤ b ∧ b ≤ 0xDF then ([], ⟨1, b - 0xC0, 0x80, 0xBF⟩)
  else if 0xE0 ≤ b ∧ b ≤ 0xEF then
    ([], ⟨2, b - 0xE0, if b = 0xE0 then 0xA0 else 0x80, if b = 0xED then 0x9F else 0xBF⟩)
  else if 0xF0 ≤ b ∧ b ≤ 0xF4 then
    ([], ⟨3, b - 0xF0, if b = 0xF0 then 0x90 else 0x80, if b = 0xF4 then 0x8F else 0xBF⟩)
  else ([replacement], .init)

def DecodeState.step (s : DecodeState) (b : Nat) : List Char × DecodeState :=
  if s.needed = 0 then startByte b
  else if s.lower ≤ b ∧ b ≤ s.upper then
    if s.needed = 1 then ([Char.ofNat (s.codePoint * 64 + (b - 0x80))], .init)
    else ([], ⟨s.needed - 1, s.codePoint * 64 + (b - 0x80), 0x80, 0xBF⟩)
  else (replacement :: (startByte b).1, (startByte b).2)

def decodeFrom (s : DecodeState) : List UInt8 → List Char
  | [] => if s.needed = 0 then [] else [replacement]
  | b :: bs => (s.step b.toNat).1 ++ decodeFrom (s.step b.toNat).2 bs

/-- `buffer.toString("utf8")`. -/
def decode (bytes : List UInt8) : List Char := decodeFrom .init bytes

theorem char_range (c : Char) : c.toNat < 0xD800 ∨ 0xDFFF < c.toNat ∧ c.toNat < 0x110000 := by
  have h := c.valid
  simpa [UInt32.isValidChar, Nat.isValidChar] using h

variable {s : DecodeState} {n : Nat}

theorem decodeFrom_cons {s' : DecodeState} {b : UInt8} {out : List Char}
    (hb : b.toNat = n) (h : s.step n = (out, s')) (bs : List UInt8) :
    decodeFrom s (b :: bs) = out ++ decodeFrom s' bs := by
  rw [decodeFrom, hb, h]

variable {b cp lo hi : Nat}

theorem step_last (h : lo ≤ b ∧ b ≤ hi) :
    (⟨1, cp, lo, hi⟩ : DecodeState).step b = ([Char.ofNat (cp * 64 + (b - 0x80))], .init) := by
  simp [step, h]

theorem step_more (h : lo ≤ b ∧ b ≤ hi) : (⟨n + 2, cp, lo, hi⟩ : DecodeState).step b =
      ([], ⟨n + 1, cp * 64 + (b - 0x80), 0x80, 0xBF⟩) := by
  simp [step, h]

variable {k : Nat}

theorem step_lead_two (h : 2 ≤ k) (h' : k < 32) : init.step (0xC0 + k) = ([], ⟨1, k, 0x80, 0xBF⟩) := by
  show startByte _ = _
  rw [startByte, if_neg (by omega), if_pos (by omega)]
  simp

theorem step_lead_three (h : k < 16) : init.step (0xE0 + k) = ([], ⟨2, k, if 0xE0 + k = 0xE0 then 0xA0 else 0x80,
      if 0xE0 + k = 0xED then 0x9F else 0xBF⟩) := by
  show startByte _ = _
  rw [startByte, if_neg (by omega), if_neg (by omega), if_pos (by omega)]
  simp

theorem step_lead_four (h : k < 5) : init.step (0xF0 + k) = ([], ⟨3, k, if 0xF0 + k = 0xF0 then 0x90 else 0x80,
      if 0xF0 + k = 0xF4 then 0x8F else 0xBF⟩) := by
  show startByte _ = _
  rw [startByte, if_neg (by omega), if_neg (by omega), if_neg (by omega), if_pos (by omega)]
  simp

theorem toNat_ofNat_of_lt (h : n < 256) : (UInt8.ofNat n).toNat = n := by
  simp; omega

variable {v : Nat}

theorem decodeFrom_two (h : 0x80 ≤ v) (h' : v < 0x800) (bs : List UInt8) :
    decodeFrom .init (.ofNat (0xC0 + v / 64) :: .ofNat (0x80 + v % 64) :: bs) =
      Char.ofNat v :: decodeFrom .init bs := by
  have hv : v / 64 * 64 + (0x80 + v % 64 - 0x80) = v := by omega
  rw [decodeFrom_cons (toNat_ofNat_of_lt (by omega)) (step_lead_two (by omega) (by omega)),
    decodeFrom_cons (toNat_ofNat_of_lt (by omega)) (step_last (by omega)), hv]
  rfl

theorem decodeFrom_three (h : 0x800 ≤ v) (h' : v < 0x10000) (hsur : v < 0xD800 ∨ 0xDFFF < v) (bs : List UInt8) :
    decodeFrom .init (.ofNat (0xE0 + v / 4096) :: .ofNat (0x80 + v / 64 % 64) ::
      .ofNat (0x80 + v % 64) :: bs) = Char.ofNat v :: decodeFrom .init bs := by
  have hv : (v / 4096 * 64 + (0x80 + v / 64 % 64 - 0x80)) * 64 + (0x80 + v % 64 - 0x80) = v := by
    omega
  rw [decodeFrom_cons (toNat_ofNat_of_lt (by omega)) (step_lead_three (by omega)),
    decodeFrom_cons (toNat_ofNat_of_lt (by omega)) (step_more (by split_ifs <;> omega)),
    decodeFrom_cons (toNat_ofNat_of_lt (by omega)) (step_last (by omega)), hv]
  rfl

theorem decodeFrom_four (h : 0x10000 ≤ v) (h' : v < 0x110000) (bs : List UInt8) :
    decodeFrom .init (.ofNat (0xF0 + v / 262144) :: .ofNat (0x80 + v / 4096 % 64) ::
      .ofNat (0x80 + v / 64 % 64) :: .ofNat (0x80 + v % 64) :: bs) = Char.ofNat v :: decodeFrom .init bs := by
  have hv : ((v / 262144 * 64 + (0x80 + v / 4096 % 64 - 0x80)) * 64 +
      (0x80 + v / 64 % 64 - 0x80)) * 64 + (0x80 + v % 64 - 0x80) = v := by omega
  rw [decodeFrom_cons (toNat_ofNat_of_lt (by omega)) (step_lead_four (by omega)),
    decodeFrom_cons (toNat_ofNat_of_lt (by omega)) (step_more (by split_ifs <;> omega)),
    decodeFrom_cons (toNat_ofNat_of_lt (by omega)) (step_more (by omega)),
    decodeFrom_cons (toNat_ofNat_of_lt (by omega)) (step_last (by omega)), hv]
  rfl

theorem decodeFrom_encodeChar (c : Char) (bs : List UInt8) :
    decodeFrom .init (encodeChar c ++ bs) = c :: decodeFrom .init bs := by
  have hc := char_range c
  unfold encodeChar
  simp only []
  split
  · rename_i h
    have hs : init.step c.toNat = ([c], .init) := by
      show startByte _ = _
      rw [startByte, if_pos h, Char.ofNat_toNat]
    rw [cons_append, decodeFrom_cons (toNat_ofNat_of_lt (by omega)) hs]
    rfl
  split
  · rename_i h h'
    rw [cons_append, cons_append, nil_append, decodeFrom_two (by omega) h', Char.ofNat_toNat]
  split
  · rename_i h h'
    simp only [cons_append, nil_append]
    rw [decodeFrom_three (by omega) h' (by omega), Char.ofNat_toNat]
  · simp only [cons_append, nil_append]
    rw [decodeFrom_four (by omega) (by omega), Char.ofNat_toNat]

/-- **Round trip.** -/
theorem decode_encode (text : List Char) : decode (encode text) = text := by
  induction text with
  | nil => rfl
  | cons c text ih =>
    simp only [decode, encode, flatMap_cons] at ih ⊢
    rw [decodeFrom_encodeChar, ih]

variable {c : Char}

theorem ascii_mem_encodeChar {b : UInt8} (hb : b.toNat < 128) (h : b ∈ encodeChar c) : c.toNat = b.toNat := by
  have hc := char_range c
  unfold encodeChar at h
  simp only [] at h
  split_ifs at h <;> simp only [mem_cons, not_mem_nil, or_false] at h
  all_goals simp only [← UInt8.toNat_inj, UInt8.toNat_ofNat'] at h
  all_goals omega

variable {text : List Char}

/-- A byte below `0x80` stands for its own character only. -/
theorem ascii_mem_encode {b : UInt8} (hb : b.toNat < 128) (h : b ∈ encode text) :
    ∃ c ∈ text, c.toNat = b.toNat := by
  obtain ⟨c, hc, h⟩ := mem_flatMap.1 h
  exact ⟨c, hc, ascii_mem_encodeChar hb h⟩

theorem encode_append (s t : List Char) : encode (s ++ t) = encode s ++ encode t := by
  simp [encode]

theorem encode_ne_nil (h : text ≠ []) : encode text ≠ [] := by
  cases text with
  | nil => exact absurd rfl h
  | cons c text =>
    simp only [encode, flatMap_cons]
    unfold encodeChar
    simp only []
    split_ifs <;> simp

/-! ## Lines and cut text -/

theorem step_lower (s : DecodeState) (b : Nat) : 0x80 ≤ (s.step b).2.lower := by
  have hstart : 0x80 ≤ (startByte b).2.lower := by
    unfold startByte
    split_ifs <;> simp [init]
  unfold step
  split_ifs
  · exact hstart
  · simp [init]
  · simp
  · exact hstart

theorem decodeFrom_newline (a : List UInt8) : ∀ {s : DecodeState}, 0x80 ≤ s.lower → ∀ b : List UInt8,
    decodeFrom s (a ++ 10 :: b) = decodeFrom s a ++ '\n' :: decodeFrom .init b := by
  induction a with
  | nil =>
    intro s h b
    have hstart : startByte 10 = (['\n'], .init) := rfl
    have hlow : ¬ (s.lower ≤ 10 ∧ 10 ≤ s.upper) := by omega
    rw [nil_append, decodeFrom, decodeFrom]
    show (s.step 10).1 ++ decodeFrom (s.step 10).2 b = _
    unfold step
    split_ifs
    · simp [hstart]
    · simp [hstart]
  | cons c a ih =>
    intro s h b
    rw [cons_append, decodeFrom, decodeFrom, ih (step_lower s _), append_assoc]

theorem decode_newline (a b : List UInt8) : decode (a ++ 10 :: b) = decode a ++ '\n' :: decode b :=
  decodeFrom_newline a (by simp [init]) b

theorem encode_cons (c : Char) (text : List Char) : encode (c :: text) = encodeChar c ++ encode text :=
  flatMap_cons

theorem decodeFrom_cut (h : s.needed ≠ 0) : decodeFrom s [] = [replacement] := by
  rw [decodeFrom, if_neg h]

theorem decode_cut_char {p q : List UInt8} (hpq : encodeChar c = p ++ q) (hp : p ≠ [])
    (hq : q ≠ []) : decode p = [replacement] := by
  have hc := char_range c
  have hlead : ∀ {b : UInt8} {n : Nat} {st : DecodeState} (rest : List UInt8), b.toNat = n →
      init.step n = ([], st) → decode (b :: rest) = decodeFrom st rest := by
    intro b n st rest hb hs
    exact decodeFrom_cons hb hs rest
  unfold encodeChar at hpq
  simp only [] at hpq
  match p, hp with
  | [b], _ =>
    split_ifs at hpq
    · simp only [cons_append, List.cons.injEq, nil_append] at hpq
      exact absurd hpq.2.symm hq
    · simp only [cons_append, List.cons.injEq] at hpq
      rw [← hpq.1, hlead [] (toNat_ofNat_of_lt (by omega)) (step_lead_two (by omega) (by omega))]
      exact decodeFrom_cut (by simp)
    · simp only [cons_append, List.cons.injEq] at hpq
      rw [← hpq.1, hlead [] (toNat_ofNat_of_lt (by omega)) (step_lead_three (by omega))]
      exact decodeFrom_cut (by simp)
    · simp only [cons_append, List.cons.injEq] at hpq
      rw [← hpq.1, hlead [] (toNat_ofNat_of_lt (by omega)) (step_lead_four (by omega))]
      exact decodeFrom_cut (by simp)
  | [b, b₁], _ =>
    split_ifs at hpq
    · simp at hpq
    · simp only [cons_append, List.cons.injEq, nil_append] at hpq
      exact absurd hpq.2.2.symm hq
    · simp only [cons_append, List.cons.injEq] at hpq
      rw [← hpq.1, ← hpq.2.1, hlead _ (toNat_ofNat_of_lt (by omega)) (step_lead_three (by omega)),
        decodeFrom_cons (toNat_ofNat_of_lt (by omega)) (step_more (by split_ifs <;> omega)), nil_append]
      exact decodeFrom_cut (by simp)
    · simp only [cons_append, List.cons.injEq] at hpq
      rw [← hpq.1, ← hpq.2.1, hlead _ (toNat_ofNat_of_lt (by omega)) (step_lead_four (by omega)),
        decodeFrom_cons (toNat_ofNat_of_lt (by omega)) (step_more (by split_ifs <;> omega)), nil_append]
      exact decodeFrom_cut (by simp)
  | [b, b₁, b₂], _ =>
    split_ifs at hpq
    · simp at hpq
    · simp at hpq
    · simp only [cons_append, List.cons.injEq, nil_append] at hpq
      exact absurd hpq.2.2.2.symm hq
    · simp only [cons_append, List.cons.injEq] at hpq
      rw [← hpq.1, ← hpq.2.1, ← hpq.2.2.1, hlead _ (toNat_ofNat_of_lt (by omega)) (step_lead_four (by omega)),
        decodeFrom_cons (toNat_ofNat_of_lt (by omega)) (step_more (by split_ifs <;> omega)),
        decodeFrom_cons (toNat_ofNat_of_lt (by omega)) (step_more (by omega)), nil_append, nil_append]
      exact decodeFrom_cut (by simp)
  | b :: b₁ :: b₂ :: b₃ :: rest, _ =>
    split_ifs at hpq
    · simp at hpq
    · simp at hpq
    · simp at hpq
    · simp only [cons_append, List.cons.injEq] at hpq
      have hnil := hpq.2.2.2.2
      rw [eq_comm, append_eq_nil_iff] at hnil
      exact absurd hnil.2 hq

theorem decode_prefix : ∀ {p : List UInt8}, p <+: encode text →
    ∃ u, u <+: text ∧ (p = encode u ∧ decode p = u ∨ u ≠ text ∧ decode p = u ++ [replacement]) := by
  induction text with
  | nil =>
    intro p hp
    exact ⟨[], nil_prefix, .inl ⟨prefix_nil.1 hp, by rw [prefix_nil.1 hp]; rfl⟩⟩
  | cons c text ih =>
    intro p hp
    obtain ⟨q, hq⟩ := hp
    rw [encode_cons, append_eq_append_iff] at hq
    obtain ⟨q', hc, -⟩ | ⟨p', rfl, htext⟩ := hq
    · by_cases hp : p = []
      · rw [hp]
        exact ⟨[], nil_prefix, .inl ⟨rfl, rfl⟩⟩
      · by_cases hq : q' = []
        · rw [hq, append_nil] at hc
          refine ⟨[c], ⟨text, rfl⟩, .inl ⟨by simp [encode, hc], ?_⟩⟩
          have hdecode := decode_encode [c]
          rwa [encode_cons, encode, flatMap_nil, append_nil, hc] at hdecode
        · exact ⟨[], nil_prefix, .inr ⟨by simp, decode_cut_char hc hp hq⟩⟩
    · obtain ⟨u, hu, hcase⟩ := ih ⟨q, htext.symm⟩
      refine ⟨c :: u, (prefix_cons_inj c).2 hu, ?_⟩
      obtain ⟨rfl, hd⟩ | ⟨hne, hd⟩ := hcase
      · exact .inl ⟨(encode_cons c u).symm, by rw [decode, decodeFrom_encodeChar]; exact congrArg _ hd⟩
      · refine .inr ⟨by simpa using hne, ?_⟩
        rw [decode, decodeFrom_encodeChar]
        exact congrArg _ hd

/-! ## Characters and their bytes -/

/-- The values the bytes that are missing can give: characters, and none below `0x80`. -/
structure DecodeState.Good (s : DecodeState) : Prop where
  lower : 0x80 ≤ s.lower
  low : s.needed ≠ 0 → 0x80 ≤ (s.codePoint * 64 + (s.lower - 0x80)) * 64 ^ (s.needed - 1)
  range : s.needed ≠ 0 → (s.codePoint * 64 + (s.upper - 0x80) + 1) * 64 ^ (s.needed - 1) ≤ 0xD800 ∨
      0xE000 ≤ (s.codePoint * 64 + (s.lower - 0x80)) * 64 ^ (s.needed - 1) ∧
        (s.codePoint * 64 + (s.upper - 0x80) + 1) * 64 ^ (s.needed - 1) ≤ 0x110000

theorem good_init : init.Good := ⟨by decide, fun h => absurd rfl h, fun h => absurd rfl h⟩

theorem toNat_ofNat_of_valid (h : v < 0xD800 ∨ 0xE000 ≤ v ∧ v < 0x110000) : (Char.ofNat v).toNat = v := by
  have hv : v.isValidChar := by
    unfold Nat.isValidChar
    omega
  rw [Char.ofNat, dif_pos hv]
  rfl

theorem good_startByte (b : Nat) : (startByte b).2.Good := by
  unfold startByte
  split_ifs
  all_goals first
    | exact good_init
    | (constructor <;> simp <;> omega)

theorem good_more (h : (⟨n + 2, cp, lo, hi⟩ : DecodeState).Good) (hin : lo ≤ b ∧ b ≤ hi) :
    (⟨n + 1, cp * 64 + (b - 0x80), 0x80, 0xBF⟩ : DecodeState).Good := by
  have hlow : 0x80 ≤ (cp * 64 + (lo - 0x80)) * 64 ^ (n + 1) := h.low (Nat.succ_ne_zero _)
  have hrange : (cp * 64 + (hi - 0x80) + 1) * 64 ^ (n + 1) ≤ 0xD800 ∨
      0xE000 ≤ (cp * 64 + (lo - 0x80)) * 64 ^ (n + 1) ∧
        (cp * 64 + (hi - 0x80) + 1) * 64 ^ (n + 1) ≤ 0x110000 := h.range (Nat.succ_ne_zero _)
  have hfrom : (cp * 64 + (lo - 0x80)) * 64 ^ (n + 1) ≤ (cp * 64 + (b - 0x80)) * 64 * 64 ^ n := by
    rw [Nat.pow_succ', ← Nat.mul_assoc]
    exact Nat.mul_le_mul_right _ (by omega)
  have hto : ((cp * 64 + (b - 0x80)) * 64 + 63 + 1) * 64 ^ n ≤ (cp * 64 + (hi - 0x80) + 1) * 64 ^ (n + 1) := by
    rw [Nat.pow_succ', ← Nat.mul_assoc]
    exact Nat.mul_le_mul_right _ (by omega)
  constructor
  · exact Nat.le_refl _
  · intro _
    simp only [Nat.add_sub_cancel, Nat.sub_self, Nat.add_zero]
    omega
  · intro _
    simp only [Nat.add_sub_cancel, Nat.sub_self, Nat.add_zero, Nat.reduceSub]
    omega

theorem step_good (h : s.Good) (b : Nat) : (s.step b).2.Good := by
  obtain ⟨needed, cp, lo, hi⟩ := s
  unfold step
  split_ifs with hzero hin hone
  · exact good_startByte b
  · exact good_init
  · obtain ⟨n, rfl⟩ : ∃ n, needed = n + 2 := ⟨needed - 2, by simp only at hzero hone; omega⟩
    exact good_more h hin
  · exact good_startByte b

theorem mem_startByte (hc : c ∈ (startByte b).1) (hascii : c.toNat < 0x80) : c.toNat = b := by
  unfold startByte at hc
  split_ifs at hc with hb
  · rw [mem_singleton.1 hc]
    exact toNat_ofNat_of_valid (by omega)
  all_goals simp at hc
  rw [hc] at hascii
  exact absurd hascii (by decide)

theorem last_not_ascii (h : s.Good) (hin : s.lower ≤ b ∧ b ≤ s.upper)
    (hone : s.needed = 1) : 0x80 ≤ (Char.ofNat (s.codePoint * 64 + (b - 0x80))).toNat := by
  have hlow := h.low (by omega)
  have hrange := h.range (by omega)
  simp only [hone, Nat.sub_self, Nat.pow_zero, Nat.mul_one] at hlow hrange
  rw [toNat_ofNat_of_valid (by omega)]
  omega

theorem mem_step (h : s.Good) (hc : c ∈ (s.step b).1) (hascii : c.toNat < 0x80) : c.toNat = b := by
  unfold step at hc
  split_ifs at hc with hzero hin hone
  · exact mem_startByte hc hascii
  · rw [mem_singleton.1 hc] at hascii
    have := last_not_ascii h hin hone
    omega
  · cases hc
  · obtain rfl | hc := mem_cons.1 hc
    · exact absurd hascii (by decide)
    · exact mem_startByte hc hascii

variable {bytes : List UInt8}

theorem ascii_mem_decodeFrom : ∀ {s : DecodeState}, s.Good → ∀ {c : Char},
    c ∈ decodeFrom s bytes → c.toNat < 0x80 → ∃ b ∈ bytes, b.toNat = c.toNat := by
  induction bytes with
  | nil =>
    intro s _ c hc hascii
    rw [decodeFrom] at hc
    split_ifs at hc
    · cases hc
    · rw [mem_singleton.1 hc] at hascii
      exact absurd hascii (by decide)
  | cons b bytes ih =>
    intro s h c hc hascii
    rw [decodeFrom] at hc
    obtain hc | hc := mem_append.1 hc
    · exact ⟨b, mem_cons_self, (mem_step h hc hascii).symm⟩
    · obtain ⟨x, hx, hval⟩ := ih (step_good h b.toNat) hc hascii
      exact ⟨x, mem_cons_of_mem b hx, hval⟩

theorem ascii_mem_decode (h : c ∈ decode bytes) (hascii : c.toNat < 0x80) : ∃ b ∈ bytes, b.toNat = c.toNat :=
  ascii_mem_decodeFrom good_init h hascii

theorem startByte_nil (h : (startByte b).1 = []) : (startByte b).2.needed ≠ 0 := by
  unfold startByte at h ⊢
  split_ifs at h ⊢ <;> simp_all

theorem step_nil (h : (s.step b).1 = []) : (s.step b).2.needed ≠ 0 := by
  unfold step at h ⊢
  split_ifs at h ⊢ with hzero hin hone
  · exact startByte_nil h
  · show s.needed - 1 ≠ 0
    omega

theorem head_decodeFrom : ∀ {s : DecodeState}, s.Good → ∀ {c : Char},
    (decodeFrom s bytes).head? = some c → c.toNat < 0x80 → s.needed = 0 ∧ ∃ b ∈ bytes.head?, b.toNat = c.toNat := by
  induction bytes with
  | nil =>
    intro s _ c hc hascii
    rw [decodeFrom] at hc
    split_ifs at hc
    · cases hc
    · cases hc
      exact absurd hascii (by decide)
  | cons b bytes ih =>
    intro s h c hc hascii
    rw [decodeFrom] at hc
    cases hout : (s.step b.toNat).1 with
    | nil =>
      rw [hout, nil_append] at hc
      exact absurd (ih (step_good h b.toNat) hc hascii).1 (step_nil hout)
    | cons x out =>
      rw [hout, cons_append, head?_cons] at hc
      cases hc
      have hval := mem_step h (c := c) (by rw [hout]; exact mem_cons_self) hascii
      refine ⟨?_, b, by simp, hval.symm⟩
      by_contra hzero
      unfold step at hout
      split_ifs at hout with hin hone
      · have hlast := last_not_ascii h hin hone
        rw [(List.cons.inj hout).1] at hlast
        omega
      · rw [← (List.cons.inj hout).1] at hascii
        exact absurd hascii (by decide)

theorem head_decode (h : (decode bytes).head? = some c) (hascii : c.toNat < 0x80) :
    ∃ b ∈ bytes.head?, b.toNat = c.toNat :=
  (head_decodeFrom good_init h hascii).2

/-- A sequence that has begun gives a character, at the latest when the bytes end. -/
theorem decodeFrom_ne_nil (bytes : List UInt8) : ∀ {s : DecodeState}, s.needed ≠ 0 → decodeFrom s bytes ≠ [] := by
  induction bytes with
  | nil =>
    intro s h
    rw [decodeFrom_cut h]
    exact cons_ne_nil _ _
  | cons b bytes ih =>
    intro s _ hnil
    rw [decodeFrom, append_eq_nil_iff] at hnil
    exact ih (step_nil hnil.1) hnil.2

theorem decode_eq_nil : decode bytes = [] ↔ bytes = [] := by
  constructor
  · intro hnil
    cases bytes with
    | nil => rfl
    | cons b bytes =>
      rw [decode, decodeFrom, append_eq_nil_iff] at hnil
      exact absurd hnil.2 (decodeFrom_ne_nil bytes (step_nil hnil.1))
  · rintro rfl
    rfl

end Utf8
end RePrime
