import Mathlib.Data.Rat.Defs
import Mathlib.Algebra.Order.Ring.Rat

/-!
# RePrime.Lib.JsNumber

The numbers of JavaScript as they are compared: rational numbers, two infinities, and `NaN`, which is
neither below nor above anything.
-/

namespace RePrime

inductive JsNumber where
  | nan
  | negInfinity
  | finite (q : ℚ)
  | posInfinity
  deriving DecidableEq

namespace JsNumber

/-- `a <= b` -/
def le : JsNumber → JsNumber → Bool
  | .nan, _ => false
  | _, .nan => false
  | .negInfinity, _ => true
  | .finite _, .negInfinity => false
  | .finite p, .finite q => decide (p ≤ q)
  | .finite _, .posInfinity => true
  | .posInfinity, .posInfinity => true
  | .posInfinity, _ => false

/-- `a < b` -/
def lt : JsNumber → JsNumber → Bool
  | .nan, _ => false
  | _, .nan => false
  | .negInfinity, .negInfinity => false
  | .negInfinity, _ => true
  | .finite _, .negInfinity => false
  | .finite p, .finite q => decide (p < q)
  | .finite _, .posInfinity => true
  | .posInfinity, _ => false

/-- `a - b` -/
def sub : JsNumber → JsNumber → JsNumber
  | .finite p, .finite q => .finite (p - q)
  | .nan, _ => .nan
  | _, .nan => .nan
  | .posInfinity, .posInfinity => .nan
  | .negInfinity, .negInfinity => .nan
  | .posInfinity, _ => .posInfinity
  | .negInfinity, _ => .negInfinity
  | .finite _, .posInfinity => .negInfinity
  | .finite _, .negInfinity => .posInfinity

theorem le_finite_mono {b : JsNumber} {p q : ℚ} (h : p ≤ q) (hq : (finite q).le b = true) :
    (finite p).le b = true := by
  cases b with
  | nan | negInfinity => cases hq
  | finite b => exact decide_eq_true (h.trans (of_decide_eq_true hq))
  | posInfinity => rfl

theorem lt_finite_mono {b : JsNumber} {p q : ℚ} (h : p ≤ q) (hp : b.lt (finite p) = true) :
    b.lt (finite q) = true := by
  cases b with
  | nan => cases hp
  | negInfinity => rfl
  | finite b => exact decide_eq_true ((of_decide_eq_true hp).trans_le h)
  | posInfinity => cases hp

theorem lt_posInfinity {b : JsNumber} {q : ℚ} (h : b.lt (finite q) = true) : b.lt posInfinity = true := by
  cases b with
  | nan => cases h
  | negInfinity | finite => rfl
  | posInfinity => cases h

end JsNumber
end RePrime
