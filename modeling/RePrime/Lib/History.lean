import Mathlib.Init

/-!
# RePrime.Lib.History

Logs that grow at the end, and what their entries have to do with the entries before them.
-/

namespace RePrime
namespace History

variable {α : Type} {P : List α → α → Prop} {log : List α} {x : α}

/-- An entry of a log with one more entry is the new one, or was there before. -/
theorem concat_eq_append_cons {a b : List α} {y : α} (h : log ++ [x] = a ++ y :: b) :
    (a = log ∧ x = y) ∨ ∃ c, log = a ++ y :: c := by
  obtain rfl | ⟨b, z, rfl⟩ := b.eq_nil_or_concat
  · obtain ⟨rfl, hx⟩ := List.append_inj' h rfl
    exact .inl ⟨rfl, by simpa using hx⟩
  · rw [List.concat_eq_append, ← List.cons_append, ← List.append_assoc] at h
    exact .inr ⟨b, (List.append_inj' h rfl).1⟩

/-- Every entry is as `P` wants it after what came before. -/
def Each (P : List α → α → Prop) (log : List α) : Prop := ∀ a x b, log = a ++ x :: b → P a x

theorem each_nil : Each P [] := by
  intro a x b h
  cases a <;> cases h

theorem each_concat (h : Each P log) (hx : P log x) : Each P (log ++ [x]) := by
  intro a y b hab
  obtain ⟨rfl, rfl⟩ | ⟨c, hc⟩ := concat_eq_append_cons hab
  · exact hx
  · exact h a y c hc

end History
end RePrime
