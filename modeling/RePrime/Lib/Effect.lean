import Mathlib.Init

/-!
# RePrime.Lib.Effect

Programs that change a state and may throw, and what holds of the state before and after them.

* `Triple P m Q E`: from a state with `P`, `m` returns into `Q` or throws into `E`. A throw keeps the state.
* `Triple.bind`, `Triple.tryCatch`, `Triple.forEach`: one rule for each way to compose programs.
-/

namespace RePrime

abbrev Effect (ε σ α : Type) : Type := EStateM ε σ α

namespace Effect

variable {ε σ α β : Type}

/-- One state after the other, the last one is what the program returns in. -/
def Triple (P : σ → Prop) (m : Effect ε σ α) (Q : α → σ → Prop) (E : ε → σ → Prop) : Prop :=
  ∀ s, P s → match m s with
    | .ok a s' => Q a s'
    | .error e s' => E e s'

/-- The state in which a program returns or throws. -/
def final (m : Effect ε σ α) (s : σ) : σ :=
  match m s with
  | .ok _ s' | .error _ s' => s'

/-- Run a program for each item of a list, and collect what it returns. -/
def collect (f : α → Effect ε σ β) : List α → Effect ε σ (List β)
  | [] => pure []
  | a :: rest => do
    let b ← f a
    let bs ← collect f rest
    pure (b :: bs)

def forEach (f : α → Effect ε σ Unit) : List α → Effect ε σ Unit
  | [] => pure ()
  | a :: rest => do
    f a
    forEach f rest

section Rules

variable {P P' : σ → Prop} {Q Q' : α → σ → Prop} {R : β → σ → Prop} {E E' F : ε → σ → Prop}

theorem Triple.pure {a : α} (h : ∀ s, P s → Q a s) : Triple P (pure a) Q E := h

theorem Triple.throw {e : ε} (h : ∀ s, P s → E e s) : Triple P (throw e) Q E := h

theorem Triple.get {Q : σ → σ → Prop} (h : ∀ s, P s → Q s s) : Triple P MonadState.get Q E := h

theorem Triple.modify {f : σ → σ} {Q : Unit → σ → Prop} (h : ∀ s, P s → Q () (f s)) : Triple P (modify f) Q E := h

theorem Triple.bind {m : Effect ε σ β} {f : β → Effect ε σ α} (hm : Triple P m R E)
    (hf : ∀ b, Triple (R b) (f b) Q E) : Triple P (m >>= f) Q E := by
  intro s hs
  have hms := hm s hs
  show match EStateM.bind m f s with
    | .ok a s' => Q a s'
    | .error e s' => E e s'
  unfold EStateM.bind
  cases hrun : m s with
  | ok b s' =>
    rw [hrun] at hms
    exact hf b s' hms
  | error e s' =>
    rw [hrun] at hms
    exact hms

theorem Triple.tryCatch {m : Effect ε σ α} {handle : ε → Effect ε σ α} (hm : Triple P m Q F)
    (hh : ∀ e, Triple (F e) (handle e) Q E) : Triple P (tryCatch m handle) Q E := by
  intro s hs
  have hms := hm s hs
  show match EStateM.tryCatch m handle s with
    | .ok a s' => Q a s'
    | .error e s' => E e s'
  unfold EStateM.tryCatch
  cases hrun : m s with
  | ok a s' =>
    rw [hrun] at hms
    exact hms
  | error e s' =>
    rw [hrun] at hms
    exact hh e s' hms

theorem Triple.conseq {m : Effect ε σ α} (h : Triple P m Q E) (hP : ∀ s, P' s → P s)
    (hQ : ∀ a s, Q a s → Q' a s) (hE : ∀ e s, E e s → E' e s) : Triple P' m Q' E' := by
  intro s hs
  have hms := h s (hP s hs)
  cases hrun : m s with
  | ok a s' =>
    rw [hrun] at hms
    exact hQ a s' hms
  | error e s' =>
    rw [hrun] at hms
    exact hE e s' hms

theorem Triple.strengthen {m : Effect ε σ α} (h : Triple P m Q E) (hP : ∀ s, P' s → P s) : Triple P' m Q E :=
  h.conseq hP (fun _ _ => id) fun _ _ => id

theorem Triple.keep {p : Prop} {m : Effect ε σ α} (h : p → Triple P m Q E) :
    Triple (fun s => P s ∧ p) m (fun a s => Q a s ∧ p) E := by
  rintro s ⟨hs, hp⟩
  have hms := h hp s hs
  cases hrun : m s with
  | ok a s' =>
    rw [hrun] at hms
    exact ⟨hms, hp⟩
  | error e s' =>
    rw [hrun] at hms
    exact hms

theorem Triple.forEach {I : List α → σ → Prop} {f : α → Effect ε σ Unit} {l : List α}
    (hf : ∀ done a rest, l = done ++ a :: rest → Triple (I done) (f a) (fun _ => I (done ++ [a])) E) :
    Triple (I []) (Effect.forEach f l) (fun _ => I l) E := by
  have hall : ∀ rest done, l = done ++ rest → Triple (I done) (Effect.forEach f rest) (fun _ => I l) E := by
    intro rest
    induction rest with
    | nil =>
      intro done hl
      rw [List.append_nil] at hl
      exact Triple.pure fun s hs => hl ▸ hs
    | cons a rest ih =>
      intro done hl
      refine Triple.bind (hf done a rest hl) fun _ => ?_
      exact ih (done ++ [a]) (by rw [List.append_assoc, List.singleton_append, hl])
  exact hall l [] rfl

theorem Triple.collect {I : List α → List β → σ → Prop} {f : α → Effect ε σ β} {l : List α}
    (hf : ∀ done a rest bs, l = done ++ a :: rest →
      Triple (I done bs) (f a) (fun b => I (done ++ [a]) (bs ++ [b])) E) :
    Triple (I [] []) (Effect.collect f l) (fun bs => I l bs) E := by
  have hall : ∀ rest done bs, l = done ++ rest →
      Triple (I done bs) (Effect.collect f rest) (fun bs' => I l (bs ++ bs')) E := by
    intro rest
    induction rest with
    | nil =>
      intro done bs hl
      rw [List.append_nil] at hl
      refine Triple.pure fun s hs => ?_
      rw [List.append_nil, hl]
      exact hs
    | cons a rest ih =>
      intro done bs hl
      refine Triple.bind (hf done a rest bs hl) fun b => ?_
      refine Triple.bind (ih (done ++ [a]) (bs ++ [b]) (by rw [List.append_assoc, List.singleton_append, hl]))
        fun bs' => ?_
      refine Triple.pure fun s hs => ?_
      rw [List.append_assoc, List.singleton_append] at hs
      exact hs
  exact hall l [] [] rfl

end Rules

end Effect
end RePrime
