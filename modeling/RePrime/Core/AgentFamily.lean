import Mathlib.Data.List.Nodup
import RePrime.Lib.JsonRoundTrip

/-!
# RePrime.Core.AgentFamily

The agents that an agent is shown, the agents that it may message, and the names that it may give.

* `sameAgentFamilyParent_iff`: two agents are of one parent by an identifier that they share, by an entry of the catalog
  that has the identifiers of both, or as roots.
* `reach_iff_roster`: when an agent may message exactly the agents that it is shown.
* `reservation_iff_conflict`: when two names have one reservation exactly if they are in conflict.
-/

namespace RePrime
namespace Core
namespace AgentFamily

open Json

structure AgentSessionNameScope where
  parentSessionId : Option String
  parentSessionPath : Option String
  depth : Int
  deriving DecidableEq

structure AgentFamilyCatalogEntry extends AgentSessionNameScope where
  id : String
  name : Option String
  sessionPath : Option String
  deriving DecidableEq

structure AgentSessionNameAvailabilityInput extends AgentSessionNameScope where
  name : String
  ignoreSessionId : Option String

inductive AgentFamilyRelationship where
  | parent
  | sibling
  | child
  deriving DecidableEq

structure AgentFamilyMember where
  relationship : AgentFamilyRelationship
  entry : AgentFamilyCatalogEntry
  deriving DecidableEq

def hasCatalogParentPair (catalog : List AgentFamilyCatalogEntry) : Option String → Option String → Bool
  | some parentSessionId, some parentSessionPath =>
    catalog.any fun entry =>
      (entry.id == parentSessionId && entry.sessionPath == some parentSessionPath) ||
        (entry.parentSessionId == some parentSessionId && entry.parentSessionPath == some parentSessionPath)
  | _, _ => false

def sameAgentFamilyParent (left right : AgentSessionNameScope) (catalog : List AgentFamilyCatalogEntry) : Bool :=
  if left.parentSessionPath ≠ none ∧ left.parentSessionPath = right.parentSessionPath then true
  else if left.parentSessionId ≠ none ∧ left.parentSessionId = right.parentSessionId then true
  else if hasCatalogParentPair catalog left.parentSessionId right.parentSessionPath ∨
      hasCatalogParentPair catalog right.parentSessionId left.parentSessionPath then true
  else if left.depth = 0 ∧ right.depth = 0 ∧ left.parentSessionPath = none ∧ right.parentSessionPath = none ∧
      left.parentSessionId = none ∧ right.parentSessionId = none then true
  else false

def sameAgentSessionNameParent (left right : AgentSessionNameScope) (catalog : List AgentFamilyCatalogEntry) : Bool :=
  if left.depth = 0 ∧ right.depth = 0 then true else sameAgentFamilyParent left right catalog

def isAgentFamilyParent (parent child : AgentFamilyCatalogEntry) : Bool :=
  (child.parentSessionPath != none && child.parentSessionPath == parent.sessionPath) ||
    (child.parentSessionId != none && child.parentSessionId == some parent.id)

def agentFamilyMemberName (entry : AgentFamilyCatalogEntry) : String := entry.name.getD entry.id

def selectAgentFamily (localeCompare : String → String → Int) (current : AgentFamilyCatalogEntry)
    (catalog : List AgentFamilyCatalogEntry) : List AgentFamilyMember :=
  let parent := catalog.find? fun entry => isAgentFamilyParent entry current
  let siblings := catalog.filter fun entry =>
    entry.id != current.id && entry.depth == current.depth &&
      sameAgentFamilyParent entry.toAgentSessionNameScope current.toAgentSessionNameScope catalog
  let children := catalog.filter fun entry => entry.depth == current.depth + 1 && isAgentFamilyParent current entry
  let byName := fun a b => decide (localeCompare (agentFamilyMemberName a) (agentFamilyMemberName b) ≤ 0)
  parent.toList.map (AgentFamilyMember.mk .parent) ++ (siblings.mergeSort byName).map (AgentFamilyMember.mk .sibling) ++
    (children.mergeSort byName).map (AgentFamilyMember.mk .child)

def agentFamilyRelationship (current target : AgentFamilyCatalogEntry) : Option AgentFamilyRelationship :=
  if current.id = target.id then none
  else if isAgentFamilyParent target current then some .parent
  else if isAgentFamilyParent current target then some .child
  else if current.depth = target.depth ∧
      sameAgentFamilyParent current.toAgentSessionNameScope target.toAgentSessionNameScope [current, target] then
    some .sibling
  else none

/-- Whether an entry is in the way of a name. -/
def conflicts (catalog : List AgentFamilyCatalogEntry) (input : AgentSessionNameAvailabilityInput)
    (entry : AgentFamilyCatalogEntry) : Bool :=
  some entry.id != input.ignoreSessionId && entry.name == some input.name && entry.depth == input.depth &&
    sameAgentSessionNameParent entry.toAgentSessionNameScope input.toAgentSessionNameScope catalog

def formatAgentSessionNameUnavailable (name : String) (depth : Int) : String :=
  "Agent name \"" ++ name ++ "\" is unavailable: an agent of that name already exists at depth " ++ toString depth ++
    " under this parent"

def assertAgentSessionNameAvailable (catalog : List AgentFamilyCatalogEntry)
    (input : AgentSessionNameAvailabilityInput) : Except String Unit :=
  if catalog.any (conflicts catalog input) then
    .error (formatAgentSessionNameUnavailable input.name input.depth)
  else .ok ()

/-- A name is available exactly when no entry is in its way. -/
theorem assertAgentSessionNameAvailable_ok {catalog : List AgentFamilyCatalogEntry}
    {input : AgentSessionNameAvailabilityInput} : assertAgentSessionNameAvailable catalog input = .ok () ↔
      ∀ entry ∈ catalog, conflicts catalog input entry = false := by
  rw [assertAgentSessionNameAvailable]
  split
  · rename_i hany
    obtain ⟨entry, hentry, hconflict⟩ := List.any_eq_true.mp hany
    refine iff_of_false (fun h => by cases h) fun hall => ?_
    rw [hall entry hentry] at hconflict
    cases hconflict
  · rename_i hnone
    exact iff_of_true rfl (by simpa using hnone)

/-- The parent that a reservation is for. An empty text counts as none. -/
def reservedParent (canonicalSessionPath : String → String) (scope : AgentSessionNameScope) : String × String :=
  if scope.depth = 0 then ("root", "")
  else if scope.parentSessionPath.getD "" ≠ "" then ("path", canonicalSessionPath (scope.parentSessionPath.getD ""))
  else if scope.parentSessionId.getD "" ≠ "" then ("id", scope.parentSessionId.getD "")
  else ("root", "")

def sessionNameReservationKey (canonicalSessionPath : String → String) (name : String)
    (scope : AgentSessionNameScope) : List Char :=
  let (parentType, parentValue) := reservedParent canonicalSessionPath scope
  stringify (.array [.int scope.depth, .string parentType, .string parentValue, .string name])

/-! ## One parent -/

/-- Two agents with the same path or the same id of a parent. -/
def Shares (left right : AgentSessionNameScope) : Prop :=
  (left.parentSessionPath ≠ none ∧ left.parentSessionPath = right.parentSessionPath) ∨
    (left.parentSessionId ≠ none ∧ left.parentSessionId = right.parentSessionId)

/-- An entry that has the id of one parent and the path of the other, for its own or for its parent's. -/
def Links (entry : AgentFamilyCatalogEntry) (left right : AgentSessionNameScope) : Prop :=
  ∃ id path, (left.parentSessionId = some id ∧ right.parentSessionPath = some path ∨
      right.parentSessionId = some id ∧ left.parentSessionPath = some path) ∧
    (entry.id = id ∧ entry.sessionPath = some path ∨
      entry.parentSessionId = some id ∧ entry.parentSessionPath = some path)

def Roots (left right : AgentSessionNameScope) : Prop :=
  left.depth = 0 ∧ right.depth = 0 ∧ left.parentSessionPath = none ∧ right.parentSessionPath = none ∧
    left.parentSessionId = none ∧ right.parentSessionId = none

section

variable {catalog : List AgentFamilyCatalogEntry} {left right : AgentSessionNameScope}

theorem hasCatalogParentPair_iff {id path : Option String} : hasCatalogParentPair catalog id path = true ↔
    ∃ entry ∈ catalog, ∃ i p, (id = some i ∧ path = some p) ∧
      (entry.id = i ∧ entry.sessionPath = some p ∨
        entry.parentSessionId = some i ∧ entry.parentSessionPath = some p) := by
  cases id with
  | none => simp [hasCatalogParentPair]
  | some i =>
    cases path with
    | none | some => simp [hasCatalogParentPair]

theorem sameAgentFamilyParent_iff : sameAgentFamilyParent left right catalog = true ↔
    Shares left right ∨ (∃ entry ∈ catalog, Links entry left right) ∨ Roots left right := by
  have hlinks : (∃ entry ∈ catalog, Links entry left right) ↔
      hasCatalogParentPair catalog left.parentSessionId right.parentSessionPath = true ∨
        hasCatalogParentPair catalog right.parentSessionId left.parentSessionPath = true := by
    rw [hasCatalogParentPair_iff, hasCatalogParentPair_iff, ← exists_or]
    refine exists_congr fun entry => ?_
    rw [← and_or_left, ← exists_or]
    refine and_congr_right fun _ => exists_congr fun id => ?_
    rw [← exists_or]
    exact exists_congr fun path => or_and_right
  rw [hlinks, sameAgentFamilyParent]
  split_ifs with hpath hid hpair hroots
  · exact iff_of_true rfl (.inl (.inl hpath))
  · exact iff_of_true rfl (.inl (.inr hid))
  · exact iff_of_true rfl (.inr (.inl hpair))
  · exact iff_of_true rfl (.inr (.inr hroots))
  · exact iff_of_false nofun fun h => h.elim (fun h => h.elim hpath hid) fun h => h.elim hpair hroots

theorem Shares.symm (h : Shares left right) : Shares right left := by
  obtain ⟨hne, heq⟩ | ⟨hne, heq⟩ := h
  · exact .inl ⟨heq ▸ hne, heq.symm⟩
  · exact .inr ⟨heq ▸ hne, heq.symm⟩

theorem Links.symm {entry : AgentFamilyCatalogEntry} (h : Links entry left right) : Links entry right left := by
  obtain ⟨id, path, hpair, hentry⟩ := h
  exact ⟨id, path, hpair.symm, hentry⟩

theorem Roots.symm (h : Roots left right) : Roots right left := by
  obtain ⟨h1, h2, h3, h4, h5, h6⟩ := h
  exact ⟨h2, h1, h4, h3, h6, h5⟩

theorem sameAgentFamilyParent_symm :
    sameAgentFamilyParent left right catalog = true ↔ sameAgentFamilyParent right left catalog = true := by
  rw [sameAgentFamilyParent_iff, sameAgentFamilyParent_iff]
  exact or_congr ⟨Shares.symm, Shares.symm⟩ (or_congr
    (exists_congr fun _ => and_congr_right fun _ => ⟨Links.symm, Links.symm⟩) ⟨Roots.symm, Roots.symm⟩)

end

/-! ## Reach and roster -/

section

variable {catalog : List AgentFamilyCatalogEntry} {current target : AgentFamilyCatalogEntry}

theorem isAgentFamilyParent_iff {parent child : AgentFamilyCatalogEntry} : isAgentFamilyParent parent child = true ↔
    (child.parentSessionPath ≠ none ∧ child.parentSessionPath = parent.sessionPath) ∨
      child.parentSessionId = some parent.id := by
  cases hid : child.parentSessionId <;> simp [isAgentFamilyParent, hid]

/-- When `agentFamilyRelationship` and `selectAgentFamily` say the same of an agent. -/
structure Agrees (catalog : List AgentFamilyCatalogEntry) (current target : AgentFamilyCatalogEntry) : Prop where
  /-- A parent is the first one in the catalog. -/
  parent : isAgentFamilyParent target current = true → ∃ before after, catalog = before ++ target :: after ∧
    ∀ entry ∈ before, ¬ isAgentFamilyParent entry current = true
  /-- A child is one level deeper, unless it is the parent too. -/
  child : isAgentFamilyParent current target = true →
    (target.depth = current.depth + 1 ↔ ¬ isAgentFamilyParent target current = true)
  /-- Of two agents with one parent and one depth neither is the parent of the other. -/
  sibling : target.depth = current.depth →
    sameAgentFamilyParent target.toAgentSessionNameScope current.toAgentSessionNameScope catalog = true →
    ¬ isAgentFamilyParent target current = true ∧ ¬ isAgentFamilyParent current target = true
  /-- The catalog links no id of one to a path of the other that have none in common. -/
  linked : target.depth = current.depth → ∀ entry ∈ catalog,
    Links entry target.toAgentSessionNameScope current.toAgentSessionNameScope →
    Shares target.toAgentSessionNameScope current.toAgentSessionNameScope

theorem mem_selectAgentFamily {localeCompare : String → String → Int} {relationship : AgentFamilyRelationship} :
    ⟨relationship, target⟩ ∈ selectAgentFamily localeCompare current catalog ↔ match relationship with
      | .parent => catalog.find? (fun entry => isAgentFamilyParent entry current) = some target
      | .sibling => target ∈ catalog ∧ target.id ≠ current.id ∧ target.depth = current.depth ∧
        sameAgentFamilyParent target.toAgentSessionNameScope current.toAgentSessionNameScope catalog = true
      | .child => target ∈ catalog ∧ target.depth = current.depth + 1 ∧ isAgentFamilyParent current target = true := by
  simp only [selectAgentFamily, List.mem_append, List.mem_map, List.mem_mergeSort, List.mem_filter, Option.mem_toList]
  cases relationship <;> simp [and_assoc]

/-- An entry of one of the two that links them is the parent of the other, or they share an identifier. -/
theorem Links.of_self {left right : AgentFamilyCatalogEntry}
    (h : Links left left.toAgentSessionNameScope right.toAgentSessionNameScope) :
    isAgentFamilyParent left right = true ∨ Shares left.toAgentSessionNameScope right.toAgentSessionNameScope := by
  rw [isAgentFamilyParent_iff, Shares]
  obtain ⟨id, path, ⟨hid, hpath⟩ | ⟨hid, hpath⟩, ⟨hown, hfile⟩ | ⟨hparent, hfile⟩⟩ := h
  · exact .inl (.inl ⟨by rw [hpath]; nofun, hpath.trans hfile.symm⟩)
  · exact .inr (.inl ⟨by rw [hfile]; nofun, hfile.trans hpath.symm⟩)
  · exact .inl (.inr (hid.trans (congrArg some hown.symm)))
  · exact .inr (.inr ⟨by rw [hparent]; nofun, hparent.trans hid.symm⟩)

theorem sameAgentFamilyParent_pair (hparent : ¬ isAgentFamilyParent target current = true)
    (hchild : ¬ isAgentFamilyParent current target = true) :
    sameAgentFamilyParent current.toAgentSessionNameScope target.toAgentSessionNameScope [current, target] = true ↔
      Shares target.toAgentSessionNameScope current.toAgentSessionNameScope ∨
        Roots target.toAgentSessionNameScope current.toAgentSessionNameScope := by
  rw [sameAgentFamilyParent_symm, sameAgentFamilyParent_iff]
  refine or_congr_right' fun hshares => or_iff_right ?_
  rintro ⟨entry, hentry, hlinks⟩
  obtain rfl | hentry := List.mem_cons.1 hentry
  · exact hshares (hlinks.symm.of_self.resolve_left hchild).symm
  · rw [List.mem_singleton.1 hentry] at hlinks
    exact hshares (hlinks.of_self.resolve_left hparent)

theorem agentFamilyRelationship_iff (hne : current.id ≠ target.id) {relationship : AgentFamilyRelationship} :
    agentFamilyRelationship current target = some relationship ↔ match relationship with
      | .parent => isAgentFamilyParent target current = true
      | .child => ¬ isAgentFamilyParent target current = true ∧ isAgentFamilyParent current target = true
      | .sibling => target.depth = current.depth ∧ ¬ isAgentFamilyParent target current = true ∧
        ¬ isAgentFamilyParent current target = true ∧
          (Shares target.toAgentSessionNameScope current.toAgentSessionNameScope ∨
            Roots target.toAgentSessionNameScope current.toAgentSessionNameScope) := by
  rw [agentFamilyRelationship, if_neg hne]
  by_cases hparent : isAgentFamilyParent target current = true
  · cases relationship <;> simp [hparent]
  · by_cases hchild : isAgentFamilyParent current target = true
    · cases relationship <;> simp [hparent, hchild]
    · have hsame := sameAgentFamilyParent_pair hparent hchild
      cases relationship <;> simp [hparent, hchild, hsame, @eq_comm _ current.depth, or_iff_not_imp_left]

/-- An agent may message exactly the agents that it is shown, where the two functions agree. -/
theorem reach_iff_roster (localeCompare : String → String → Int) (hcurrent : current ∈ catalog)
    (htarget : target ∈ catalog) (hids : (catalog.map (·.id)).Nodup) (hne : current ≠ target) :
    (∀ relationship, agentFamilyRelationship current target = some relationship ↔
      ⟨relationship, target⟩ ∈ selectAgentFamily localeCompare current catalog) ↔ Agrees catalog current target := by
  have hid : current.id ≠ target.id := fun heq => hne (List.inj_on_of_nodup_map hids hcurrent htarget heq)
  simp only [agentFamilyRelationship_iff hid, mem_selectAgentFamily]
  constructor
  · intro h
    have hparent := h .parent
    have hchild := h .child
    have hsibling := h .sibling
    simp only [htarget, true_and, ne_eq, hid.symm, not_false_eq_true] at hparent hchild hsibling
    refine ⟨fun hp => ?_, fun hc => ⟨fun hdepth => (hchild.2 ⟨hdepth, hc⟩).1, fun hp => (hchild.1 ⟨hp, hc⟩).1⟩,
      fun hdepth hsame => ?_, fun hdepth entry hentry hlinks => ?_⟩
    · obtain ⟨-, before, after, hsplit, hfirst⟩ := List.find?_eq_some_iff_append.1 (hparent.1 hp)
      exact ⟨before, after, hsplit, fun entry hentry => by simpa using hfirst entry hentry⟩
    · obtain ⟨-, hp, hc, -⟩ := hsibling.2 ⟨hdepth, hsame⟩
      exact ⟨hp, hc⟩
    · obtain ⟨-, -, -, hshares | hroots⟩ :=
        hsibling.2 ⟨hdepth, sameAgentFamilyParent_iff.2 (.inr (.inl ⟨entry, hentry, hlinks⟩))⟩
      · exact hshares
      · obtain ⟨id, path, ⟨hid, -⟩ | ⟨hid, -⟩, -⟩ := hlinks
        · exact absurd (hid.symm.trans hroots.2.2.2.2.1) nofun
        · exact absurd (hid.symm.trans hroots.2.2.2.2.2) nofun
  · intro h relationship
    cases relationship with
    | parent =>
      constructor
      · intro hp
        obtain ⟨before, after, hsplit, hfirst⟩ := h.parent hp
        exact List.find?_eq_some_iff_append.2 ⟨hp, before, after, hsplit, fun entry hentry => by
          simpa using hfirst entry hentry⟩
      · exact List.find?_some
    | child =>
      exact ⟨fun ⟨hp, hc⟩ => ⟨htarget, (h.child hc).2 hp, hc⟩, fun ⟨_, hdepth, hc⟩ => ⟨(h.child hc).1 hdepth, hc⟩⟩
    | sibling =>
      constructor
      · rintro ⟨hdepth, -, -, hsame⟩
        exact ⟨htarget, hid.symm, hdepth, sameAgentFamilyParent_iff.2 (hsame.imp_right .inr)⟩
      · rintro ⟨-, -, hdepth, hsame⟩
        obtain ⟨hp, hc⟩ := h.sibling hdepth hsame
        refine ⟨hdepth, hp, hc, ?_⟩
        obtain hshares | ⟨entry, hentry, hlinks⟩ | hroots := sameAgentFamilyParent_iff.1 hsame
        · exact .inl hshares
        · exact .inl (h.linked hdepth entry hentry hlinks)
        · exact .inr hroots

end

def rootAgent : AgentFamilyCatalogEntry := ⟨⟨none, none, 0⟩, "root", none, some "/root"⟩

def childById : AgentFamilyCatalogEntry := ⟨⟨some "root", none, 1⟩, "a", none, none⟩

def childByPath : AgentFamilyCatalogEntry := ⟨⟨none, some "/root", 1⟩, "b", none, none⟩

theorem reach_iff_roster_siblings :
    (∀ relationship, agentFamilyRelationship rootAgent childById = some relationship ↔
      ⟨relationship, childById⟩ ∈ selectAgentFamily (fun _ _ => 0) rootAgent [rootAgent, childById]) ↔
    Agrees [rootAgent, childById] rootAgent childById :=
  reach_iff_roster (fun _ _ => 0) (by decide) (by decide) (by decide) (by decide)

/-- A sibling that is known by the id of the parent is shown the one that is known by its path, and cannot reach it. -/
theorem roster_without_reach : agentFamilyRelationship childById childByPath = none ∧
      ⟨.sibling, childByPath⟩ ∈ selectAgentFamily (fun _ _ => 0) childById [rootAgent, childById, childByPath] :=
  ⟨by decide, mem_selectAgentFamily.2 (by decide)⟩

/-! ## Reservations -/

section

variable {canonicalSessionPath : String → String} {catalog : List AgentFamilyCatalogEntry}

theorem sessionNameReservationKey_inj {name name' : String} {left right : AgentSessionNameScope} :
    sessionNameReservationKey canonicalSessionPath name left =
        sessionNameReservationKey canonicalSessionPath name' right ↔ name = name' ∧ left.depth = right.depth ∧
        reservedParent canonicalSessionPath left = reservedParent canonicalSessionPath right := by
  constructor
  · intro h
    have hitems := Value.array.inj (stringify_injective h)
    obtain ⟨hdepth, htype, hvalue, hname⟩ :
        Value.int left.depth = Value.int right.depth ∧ _ ∧ _ ∧ Value.string name = Value.string name' := by
      simpa only [List.cons.injEq, and_true] using hitems
    have hint := congrArg Value.toInt? hdepth
    rw [toInt?_int, toInt?_int] at hint
    exact ⟨Value.string.inj hname, Option.some.inj hint,
      Prod.ext (Value.string.inj htype) (Value.string.inj hvalue)⟩
  · rintro ⟨rfl, hdepth, hparent⟩
    rw [sessionNameReservationKey, sessionNameReservationKey, hdepth, hparent]

/-- When two sessions with one name and one depth have one reservation exactly if they are in conflict. -/
def Reserved (catalog : List AgentFamilyCatalogEntry) (left right : AgentSessionNameScope) : Prop :=
  match left.parentSessionPath, right.parentSessionPath with
  | some path, some path' => path = path' ∨
    ¬ Shares left right ∧ ¬ ∃ entry ∈ catalog, Links entry left right
  | some _, none | none, some _ => ¬ Shares left right ∧ ¬ ∃ entry ∈ catalog, Links entry left right
  | none, none => left.parentSessionId = some "" ∧ right.parentSessionId = some "" ∨
    left.parentSessionId.getD "" ≠ "" ∨ right.parentSessionId.getD "" ≠ ""

theorem reservedParent_path {scope : AgentSessionNameScope} {path : String} (hdepth : scope.depth ≠ 0)
    (hpath : scope.parentSessionPath = some path) (hne : path ≠ "") :
    reservedParent canonicalSessionPath scope = ("path", canonicalSessionPath path) := by
  rw [reservedParent, if_neg hdepth, hpath, Option.getD_some, if_pos hne]

theorem reservedParent_none {scope : AgentSessionNameScope} (hdepth : scope.depth ≠ 0)
    (hpath : scope.parentSessionPath = none) : reservedParent canonicalSessionPath scope =
      if scope.parentSessionId.getD "" ≠ "" then ("id", scope.parentSessionId.getD "") else ("root", "") := by
  rw [reservedParent, if_neg hdepth, hpath, Option.getD_none, if_neg (not_not_intro rfl)]

theorem reserved_iff {left right : AgentSessionNameScope} (hleft : left.depth ≠ 0) (hdepth : left.depth = right.depth)
    (hcanonical : ∀ path, left.parentSessionPath = some path ∨ right.parentSessionPath = some path →
      canonicalSessionPath path = path ∧ path ≠ "") :
    (reservedParent canonicalSessionPath left = reservedParent canonicalSessionPath right ↔
      sameAgentFamilyParent left right catalog = true) ↔ Reserved catalog left right := by
  have hright : right.depth ≠ 0 := hdepth ▸ hleft
  have hroots : ¬ Roots left right := fun h => hleft h.1
  rw [sameAgentFamilyParent_iff, or_iff_left hroots, Reserved]
  cases hpath : left.parentSessionPath with
  | some path =>
    obtain ⟨hsame, hne⟩ := hcanonical path (.inl hpath)
    rw [reservedParent_path hleft hpath hne, hsame]
    cases hpath' : right.parentSessionPath with
    | some path' =>
      obtain ⟨hsame', hne'⟩ := hcanonical path' (.inr hpath')
      have hshares : path = path' → Shares left right := fun heq =>
        .inl ⟨by rw [hpath]; nofun, by rw [hpath, hpath', heq]⟩
      rw [reservedParent_path hright hpath' hne', hsame', Prod.mk.injEq, and_iff_right rfl]
      by_cases heq : path = path'
      · exact iff_of_true (iff_of_true heq (.inl (hshares heq))) (.inl heq)
      · simp [heq]
    | none =>
      rw [reservedParent_none hright hpath']
      split <;> simp
  | none =>
    rw [reservedParent_none hleft hpath]
    cases hpath' : right.parentSessionPath with
    | some path' =>
      rw [reservedParent_path hright hpath' (hcanonical path' (.inr hpath')).2]
      split <;> simp
    | none =>
      have hlinks : ¬ ∃ entry ∈ catalog, Links entry left right := by
        rintro ⟨entry, -, id, path, ⟨-, hsome⟩ | ⟨-, hsome⟩, -⟩
        · exact absurd (hsome.symm.trans hpath') nofun
        · exact absurd (hsome.symm.trans hpath) nofun
      rw [reservedParent_none hright hpath', or_iff_left hlinks, Shares, hpath]
      cases hid : left.parentSessionId <;> cases hid' : right.parentSessionId <;> simp
      split_ifs <;> simp_all

end

/-- Two sessions have one reservation exactly if one is in the way of the other, where the parents that the catalog
knows are the parents that are reserved. -/
theorem reservation_iff_conflict {canonicalSessionPath : String → String}
    (habsolute : ∀ path, canonicalSessionPath path ≠ "")
    (catalog : List AgentFamilyCatalogEntry) {entry : AgentFamilyCatalogEntry}
    {input : AgentSessionNameAvailabilityInput}
    {name : String} (hname : entry.name = some name) (hdistinct : some entry.id ≠ input.ignoreSessionId)
    (hcanonical : ∀ path, entry.parentSessionPath = some path ∨ input.parentSessionPath = some path →
      canonicalSessionPath path = path) :
    (sessionNameReservationKey canonicalSessionPath name entry.toAgentSessionNameScope =
        sessionNameReservationKey canonicalSessionPath input.name input.toAgentSessionNameScope ↔
      conflicts catalog input entry = true) ↔ (name = input.name → entry.depth = input.depth → entry.depth ≠ 0 →
      Reserved catalog entry.toAgentSessionNameScope input.toAgentSessionNameScope) := by
  have hconflicts : conflicts catalog input entry = true ↔ name = input.name ∧ entry.depth = input.depth ∧
      sameAgentSessionNameParent entry.toAgentSessionNameScope input.toAgentSessionNameScope catalog = true := by
    simp [conflicts, hdistinct, hname, and_assoc]
  rw [sessionNameReservationKey_inj, hconflicts]
  by_cases hsame : name = input.name ∧ entry.depth = input.depth
  · obtain ⟨hn, hdepth⟩ := hsame
    by_cases hzero : entry.depth = 0
    · have hroot : reservedParent canonicalSessionPath entry.toAgentSessionNameScope =
          reservedParent canonicalSessionPath input.toAgentSessionNameScope := by
        rw [reservedParent, if_pos hzero, reservedParent, if_pos (hdepth.symm.trans hzero)]
      refine iff_of_true (iff_of_true ⟨hn, hdepth, hroot⟩ ⟨hn, hdepth, ?_⟩) fun _ _ h => absurd hzero h
      rw [sameAgentSessionNameParent, if_pos ⟨hzero, hdepth.symm.trans hzero⟩]
    · have hreserved := @reserved_iff canonicalSessionPath catalog _ _ hzero hdepth fun path hpath =>
        ⟨hcanonical path hpath, hcanonical path hpath ▸ habsolute path⟩
      simp only [hn, hdepth, true_and, sameAgentSessionNameParent]
      rw [if_neg fun h => hzero (hdepth.trans h.1), hreserved]
      exact ⟨fun h _ _ _ => h, fun h => h trivial trivial (hdepth ▸ hzero)⟩
  · exact iff_of_true (iff_of_false (fun h => hsame ⟨h.1, h.2.1⟩) fun h => hsame ⟨h.1, h.2.1⟩)
      fun hn hdepth => absurd ⟨hn, hdepth⟩ hsame

/-- Paths as they are, with a root for the empty one. -/
def rootedPath (path : String) : String := if path = "" then "/" else path

def builderByPath : AgentSessionNameAvailabilityInput := ⟨⟨none, some "/root", 1⟩, "builder", some "b"⟩

/-- The root, and a child of it that names its parent by id. -/
def builderCatalog : List AgentFamilyCatalogEntry := [rootAgent, { childById with name := some "builder" }]

theorem reservation_iff_conflict_builder :
    (sessionNameReservationKey rootedPath "builder" childById.toAgentSessionNameScope =
        sessionNameReservationKey rootedPath "builder" builderByPath.toAgentSessionNameScope ↔
      conflicts builderCatalog builderByPath { childById with name := some "builder" } = true) ↔
    ("builder" = "builder" → childById.depth = builderByPath.depth → childById.depth ≠ 0 →
      Reserved builderCatalog childById.toAgentSessionNameScope builderByPath.toAgentSessionNameScope) := by
  have habsolute : ∀ path, rootedPath path ≠ "" := by
    intro path h
    rw [rootedPath] at h
    split at h
    · exact absurd h (by decide)
    · contradiction
  refine @reservation_iff_conflict rootedPath habsolute builderCatalog { childById with name := some "builder" }
    builderByPath "builder" rfl (by decide) ?_
  rintro path (h | h)
  · cases h
  · cases h
    decide

/-- A name that is in the way by the id of the parent is reserved apart from the one by its path. -/
theorem conflict_without_reservation :
    conflicts builderCatalog builderByPath { childById with name := some "builder" } = true ∧
      sessionNameReservationKey rootedPath "builder" childById.toAgentSessionNameScope ≠
        sessionNameReservationKey rootedPath "builder" builderByPath.toAgentSessionNameScope := by
  refine ⟨by decide, fun h => ?_⟩
  exact absurd (sessionNameReservationKey_inj.1 h).2.2 (by decide)

end AgentFamily
end Core
end RePrime
