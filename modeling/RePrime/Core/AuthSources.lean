import Mathlib.Data.List.ReduceOption
import RePrime.Lib.Runs

/-!
# RePrime.Core.AuthSources

Where the key of a provider comes from (`auth-storage.ts`): the candidates in their order and the stale ones among
them, and `getApiKeyWithSourceToken`, which goes through the sources on its own.

* `getApiKeyWithSourceToken_eq`: it returns what the first candidate that is not stale gives.
* `key_reported`: with what `hasAuth`, `getAuthStatus` and `getCurrentAuthSourceToken` say, and never a token that was
  marked as stale.
-/

namespace RePrime
namespace Core
namespace AuthSources

open Option

inductive Source where
  | stored | runtime | environment | fallback
deriving DecidableEq

def Source.name : Source → String
  | stored => "stored"
  | runtime => "runtime"
  | environment => "environment"
  | fallback => "fallback"

inductive AuthCredential where
  | apiKey (key : String)
  | oauth (access refresh : String) (expires : Int)
  /-- Whatever else is found, which gives no key: a static token of a connection, or what an object inherits. -/
  | other (type : String)

structure AuthSourceToken where
  provider : String
  source : Source
  identityFingerprint : String
  valueFingerprint : String
deriving DecidableEq

structure AuthSourceCandidate where
  configured : Bool
  source : Source
  label : Option String
  identityFingerprint : String
  valueFingerprint : Option String
  /-- What `resolveValueFingerprint` gives, when there is one. -/
  resolveValueFingerprint : Option (Option String)

structure AuthApiKeyResult where
  apiKey : Option String
  sourceToken : Option AuthSourceToken
  credentialType : Option String

/-- An `AuthStorage` and what it reads of its surroundings. -/
structure AuthStorage where
  runtimeOverrides : String → Option String
  data : String → Option AuthCredential
  staleAuthSources : String → List AuthSourceToken
  fallbackResolver : String → Option String
  /-- The first of `findEnvKeys`. -/
  findEnvKey : String → Option String
  getEnvApiKey : String → Option String
  getAmbientEnvironmentIdentityMaterial : String → String
  resolveConfigValue : String → Option String
  resolveConfigValueUncached : String → Option String
  /-- `getApiKey` of a registered provider. -/
  getOAuthProvider : String → Option (AuthCredential → String)
  now : Int
  sha256 : String → String
  /-- What a refresh of expired credentials, or a reload after it failed, leads to. -/
  refreshed : String → Option AuthApiKeyResult

namespace AuthStorage

variable (s : AuthStorage) (provider : String)

/-! ## Candidates -/

def fingerprintAuthSource (source : Source) (material : String) : String :=
  source.name ++ ":" ++ s.sha256 (source.name ++ "\x00" ++ material)

def createAuthSourceCandidate (source : Source) (configured : Bool) (label : Option String) (identityMaterial : String)
    (valueMaterial : Option String) (resolveValueMaterial : Option (Option String)) : AuthSourceCandidate :=
  let value := fun material => s.fingerprintAuthSource source ("value:" ++ identityMaterial ++ "\x00" ++ material)
  { configured := configured
    source := source
    label := label.filter (· ≠ "")
    identityFingerprint := s.fingerprintAuthSource source ("identity:" ++ identityMaterial)
    valueFingerprint := valueMaterial.map value
    resolveValueFingerprint := resolveValueMaterial.map (·.map value) }

def isCommand (key : String) : Bool := key.startsWith "!"

def getStoredCredentialValueMaterial : AuthCredential → Option String
  | .apiKey key =>
    if isCommand key then
      (s.resolveConfigValueUncached key).map fun value => "api_key:command:" ++ key ++ "\x00" ++ value
    else some ("api_key:" ++ key ++ "\x00" ++ (s.resolveConfigValue key).getD "")
  | .oauth access refresh expires =>
    let apiKey := ((s.getOAuthProvider provider).map (· (.oauth access refresh expires))).getD access
    some ("oauth:" ++ apiKey ++ "\x00" ++ refresh ++ "\x00" ++ toString expires)
  | .other _ => none

def getRuntimeAuthCandidate : Option AuthSourceCandidate :=
  ((s.runtimeOverrides provider).filter (· ≠ "")).map fun apiKey =>
    s.createAuthSourceCandidate .runtime false (some "--api-key") provider (some apiKey) none

/-- A command is not run for a candidate, unless its value is given. -/
def getStoredAuthCandidate (resolvedCommandValue : Option String) : Option AuthSourceCandidate :=
  (s.data provider).map fun credential =>
    let material := s.getStoredCredentialValueMaterial provider credential
    match credential with
    | .apiKey key =>
      if isCommand key then
        s.createAuthSourceCandidate .stored true none ("api_key:command:" ++ key)
          (resolvedCommandValue.map fun value => "api_key:command:" ++ key ++ "\x00" ++ value) (some material)
      else s.createAuthSourceCandidate .stored true none (provider ++ ":api_key") material none
    | .oauth .. => s.createAuthSourceCandidate .stored true none (provider ++ ":oauth") material none
    | .other type => s.createAuthSourceCandidate .stored true none (provider ++ ":" ++ type) material none

def getEnvironmentAuthCandidate : Option AuthSourceCandidate :=
  ((s.getEnvApiKey provider).filter (· ≠ "")).map fun apiKey =>
    let envKey := s.findEnvKey provider
    let identityMaterial := envKey.getD (s.getAmbientEnvironmentIdentityMaterial provider)
    s.createAuthSourceCandidate .environment false (some (envKey.getD "ambient credentials")) identityMaterial
      (some (identityMaterial ++ "\x00" ++ apiKey)) none

def getFallbackAuthCandidate : Option AuthSourceCandidate :=
  ((s.fallbackResolver provider).filter (· ≠ "")).map fun apiKey =>
    s.createAuthSourceCandidate .fallback false (some "custom provider config") provider (some apiKey) none

def PRIME_INFERENCE_PROVIDER_ID : String := "prime-inference"

def getAuthSourceCandidates : List AuthSourceCandidate :=
  let fallbackCandidate := s.getFallbackAuthCandidate provider
  (if provider = PRIME_INFERENCE_PROVIDER_ID then
    [s.getRuntimeAuthCandidate provider, s.getEnvironmentAuthCandidate provider,
      s.getStoredAuthCandidate provider none, fallbackCandidate]
  else
    [s.getRuntimeAuthCandidate provider, s.getStoredAuthCandidate provider none,
      s.getEnvironmentAuthCandidate provider, fallbackCandidate]).reduceOption

def getMatchingStaleAuthSources (candidate : AuthSourceCandidate) : List AuthSourceToken :=
  (s.staleAuthSources provider).filter fun token =>
    token.source = candidate.source ∧ token.identityFingerprint = candidate.identityFingerprint

/-- `candidate.valueFingerprint ?? candidate.resolveValueFingerprint?.()`. -/
def value (candidate : AuthSourceCandidate) : Option String :=
  candidate.valueFingerprint.or (candidate.resolveValueFingerprint.getD none)

def isAuthSourceStale (candidate : AuthSourceCandidate) : Bool :=
  (s.getMatchingStaleAuthSources provider candidate).any fun token =>
    value candidate = some token.valueFingerprint ∧ token.valueFingerprint ≠ ""

def getAvailableAuthCandidate : Option AuthSourceCandidate :=
  (s.getAuthSourceCandidates provider).find? fun candidate => !s.isAuthSourceStale provider candidate

def hasAuth : Bool := (s.getAvailableAuthCandidate provider).isSome

/-- The source that `getAuthStatus` reports. It is `"stale"` when all candidates are. -/
def getAuthStatusSource : Option String :=
  match s.getAvailableAuthCandidate provider with
  | some candidate => some candidate.source.name
  | none => if s.getAuthSourceCandidates provider = [] then none else some "stale"

def getAuthSourceTokenForCandidate (candidate : AuthSourceCandidate) : Option AuthSourceToken :=
  ((value candidate).filter (· ≠ "")).map fun valueFingerprint =>
    ⟨provider, candidate.source, candidate.identityFingerprint, valueFingerprint⟩

def getCurrentAuthSourceToken : Option AuthSourceToken :=
  (s.getAvailableAuthCandidate provider).bind (getAuthSourceTokenForCandidate provider)

/-- Nothing is marked for a token without a provider. -/
def markAuthSourceStale (token : AuthSourceToken) : Option AuthStorage :=
  if token.provider = "" then none
  else some { s with
    staleAuthSources := fun provider =>
      let stale := s.staleAuthSources provider
      if provider = token.provider ∧ token ∉ stale then stale ++ [token] else stale }

/-! ## The key -/

/-- A candidate that is there and not stale. -/
def fresh (candidate : Option AuthSourceCandidate) : Option AuthSourceCandidate :=
  candidate.filter fun candidate => !s.isAuthSourceStale provider candidate

def runtimeBranch : Option AuthApiKeyResult :=
  (s.fresh provider (s.getRuntimeAuthCandidate provider)).map fun candidate =>
    ⟨s.runtimeOverrides provider, getAuthSourceTokenForCandidate provider candidate, none⟩

def environmentBranch : Option AuthApiKeyResult :=
  (s.fresh provider (s.getEnvironmentAuthCandidate provider)).map fun candidate =>
    ⟨s.getEnvApiKey provider, getAuthSourceTokenForCandidate provider candidate, none⟩

def storedBranch : Option AuthApiKeyResult :=
  match s.data provider with
  | some (.apiKey key) =>
    (s.fresh provider (s.getStoredAuthCandidate provider none)).map fun candidate =>
      let hasStaleRecord := s.getMatchingStaleAuthSources provider candidate ≠ []
      let apiKey :=
        if isCommand key ∧ hasStaleRecord then s.resolveConfigValueUncached key else s.resolveConfigValue key
      let sourceToken := apiKey.bind fun apiKey =>
        getAuthSourceTokenForCandidate provider
          (if isCommand key then (s.getStoredAuthCandidate provider (some apiKey)).getD candidate else candidate)
      ⟨apiKey, sourceToken, some "api_key"⟩
  | some (.oauth access refresh expires) =>
    (s.fresh provider (s.getStoredAuthCandidate provider none)).bind fun candidate =>
      match s.getOAuthProvider provider with
      | none => some ⟨none, none, none⟩
      | some getApiKey =>
        if expires ≤ s.now then s.refreshed provider
        else some ⟨some (getApiKey (.oauth access refresh expires)),
          getAuthSourceTokenForCandidate provider candidate, some "oauth"⟩
  | _ => none

def fallbackBranch : Option AuthApiKeyResult :=
  (s.fresh provider (s.getFallbackAuthCandidate provider)).map fun candidate =>
    ⟨s.fallbackResolver provider, getAuthSourceTokenForCandidate provider candidate, none⟩

def getApiKeyWithSourceToken : AuthApiKeyResult :=
  (((((s.runtimeBranch provider).or
    (if provider = PRIME_INFERENCE_PROVIDER_ID then s.environmentBranch provider else none)).or
    (s.storedBranch provider)).or
    (if provider ≠ PRIME_INFERENCE_PROVIDER_ID then s.environmentBranch provider else none)).or
    (s.fallbackBranch provider)).getD ⟨none, none, none⟩

/-- What is stored gives a key: it resolves to a value that stays, or it is an unexpired credential of a registered
provider. -/
def Usable : Prop :=
  match s.data provider with
  | none => True
  | some (.apiKey key) => ∃ value, value ≠ "" ∧ s.resolveConfigValue key = some value ∧
      s.resolveConfigValueUncached key = some value
  | some (.oauth _ _ expires) => s.now < expires ∧ (s.getOAuthProvider provider).isSome = true
  | some (.other _) => False

/-- The key that a source gives. -/
def sourceKey : Source → Option String
  | .runtime => s.runtimeOverrides provider
  | .environment => s.getEnvApiKey provider
  | .fallback => s.fallbackResolver provider
  | .stored => match s.data provider with
    | some (.apiKey key) => s.resolveConfigValue key
    | some (.oauth access refresh expires) => (s.getOAuthProvider provider).map (· (.oauth access refresh expires))
    | _ => none

def sourceType : Source → Option String
  | .stored => match s.data provider with
    | some (.apiKey _) => some "api_key"
    | some (.oauth ..) => some "oauth"
    | _ => none
  | _ => none

def resultOf (candidate : AuthSourceCandidate) : AuthApiKeyResult :=
  ⟨s.sourceKey provider candidate.source, getAuthSourceTokenForCandidate provider candidate,
    s.sourceType provider candidate.source⟩

variable {s provider}

theorem find?_reduceOption {α : Type} (q : α → Bool) (o : Option α) (l : List (Option α)) :
    (o :: l).reduceOption.find? q = (o.filter q).or (l.reduceOption.find? q) := by
  cases o with
  | none => rfl
  | some a =>
    rw [List.reduceOption_cons_of_some, List.find?_cons, filter_some]
    cases q a <;> rfl

theorem map_fresh {candidate : Option AuthSourceCandidate} {result : AuthSourceCandidate → AuthApiKeyResult}
    (h : ∀ c, candidate = some c → result c = s.resultOf provider c) :
    (s.fresh provider candidate).map result = (s.fresh provider candidate).map (s.resultOf provider) :=
  map_congr fun c hc => h c (filter_eq_some_iff.1 hc).1

/-- A candidate with the value of a command has the token of the one that runs the command. -/
theorem storedBranch_eq (h : s.Usable provider) : s.storedBranch provider =
    (s.fresh provider (s.getStoredAuthCandidate provider none)).map (s.resultOf provider) := by
  unfold Usable at h
  unfold storedBranch
  cases hd : s.data provider with
  | none => simp [getStoredAuthCandidate, fresh, hd]
  | some credential =>
    rw [hd] at h
    cases credential with
    | apiKey key =>
      obtain ⟨apiKey, -, hcached, huncached⟩ := h
      refine map_fresh fun c hc => ?_
      simp only [getStoredAuthCandidate, hd, map_some, Option.some.injEq] at hc
      subst hc
      by_cases hcommand : isCommand key = true <;>
        simp [hcommand, hcached, huncached, hd, resultOf, sourceKey, sourceType, getStoredAuthCandidate,
          getAuthSourceTokenForCandidate, value, createAuthSourceCandidate, getStoredCredentialValueMaterial]
    | oauth access refresh expires =>
      obtain ⟨hunexpired, hregistered⟩ := h
      obtain ⟨getApiKey, hprovider⟩ := isSome_iff_exists.1 hregistered
      simp only [hprovider, if_neg (Int.not_le.2 hunexpired)]
      refine map_eq_bind.symm.trans (map_fresh fun c hc => ?_)
      simp only [getStoredAuthCandidate, hd, map_some, Option.some.injEq] at hc
      subst hc
      simp [resultOf, sourceKey, sourceType, createAuthSourceCandidate, hd, hprovider]
    | other type => exact h.elim

theorem getApiKeyWithSourceToken_eq (h : s.Usable provider) : s.getApiKeyWithSourceToken provider =
    ((s.getAvailableAuthCandidate provider).map (s.resultOf provider)).getD ⟨none, none, none⟩ := by
  have hruntime : s.runtimeBranch provider = _ := map_fresh fun c hc => by
    obtain ⟨apiKey, -, rfl⟩ := map_eq_some_iff.1 hc
    rfl
  have henvironment : s.environmentBranch provider = _ := map_fresh fun c hc => by
    obtain ⟨apiKey, -, rfl⟩ := map_eq_some_iff.1 hc
    rfl
  have hfallback : s.fallbackBranch provider = _ := map_fresh fun c hc => by
    obtain ⟨apiKey, -, rfl⟩ := map_eq_some_iff.1 hc
    rfl
  rw [getApiKeyWithSourceToken, getAvailableAuthCandidate, getAuthSourceCandidates, hruntime, henvironment, hfallback,
    storedBranch_eq h]
  congr 1
  by_cases hp : provider = PRIME_INFERENCE_PROVIDER_ID
  · simp [hp, find?_reduceOption, fresh, Option.map_or, Option.or_assoc]
  · simp [hp, find?_reduceOption, fresh, Option.map_or, Option.or_assoc]

theorem fingerprint_ne (source : Source) (material : String) : s.fingerprintAuthSource source material ≠ "" := by
  intro h
  have hlength := congrArg String.length h
  simp [fingerprintAuthSource] at hlength

theorem candidate_spec (h : s.Usable provider) {c : AuthSourceCandidate} (hc : c ∈ s.getAuthSourceCandidates provider) :
    (s.sourceKey provider c.source).isSome = true ∧ ∃ v, value c = some v ∧ v ≠ "" := by
  have hsome : some c = s.getStoredAuthCandidate provider none ∨ some c = s.getRuntimeAuthCandidate provider ∨
      some c = s.getEnvironmentAuthCandidate provider ∨ some c = s.getFallbackAuthCandidate provider := by
    unfold getAuthSourceCandidates at hc
    rw [List.reduceOption_mem_iff] at hc
    split at hc <;> simp only [List.mem_cons, List.not_mem_nil, or_false] at hc <;> tauto
  rcases hsome with hc | hc
  · obtain ⟨credential, hd, rfl⟩ := map_eq_some_iff.1 hc.symm
    unfold Usable at h
    rw [hd] at h
    cases credential with
    | apiKey key =>
      obtain ⟨apiKey, -, hcached, huncached⟩ := h
      by_cases hcommand : isCommand key = true <;>
        simp [hcommand, sourceKey, createAuthSourceCandidate, hd, hcached, huncached, value,
          getStoredCredentialValueMaterial, fingerprint_ne]
    | oauth access refresh expires =>
      simp [sourceKey, createAuthSourceCandidate, hd, h.2, value, getStoredCredentialValueMaterial, fingerprint_ne]
    | other type => exact h.elim
  · rcases hc with hc | hc | hc <;>
    · obtain ⟨apiKey, hkey, rfl⟩ := map_eq_some_iff.1 hc.symm
      exact ⟨by simp [sourceKey, createAuthSourceCandidate, (filter_eq_some_iff.1 hkey).1], _, rfl, fingerprint_ne _ _⟩

theorem not_current_of_stale {token : AuthSourceToken} (h : token ∈ s.staleAuthSources provider) :
    s.getCurrentAuthSourceToken provider ≠ some token := by
  intro hcurrent
  obtain ⟨c, hc, htoken⟩ := bind_eq_some_iff.1 hcurrent
  obtain ⟨v, hv, rfl⟩ := map_eq_some_iff.1 htoken
  obtain ⟨hv, hne⟩ := filter_eq_some_iff.1 hv
  have hfresh := List.find?_some hc
  have hstale : s.isAuthSourceStale provider c = true := by
    rw [isAuthSourceStale, List.any_eq_true]
    exact ⟨_, List.mem_filter.2 ⟨h, by simp⟩, by simpa [hv] using hne⟩
  rw [hstale] at hfresh
  cases hfresh

/-! ## Runs -/

inductive Action where
  | markAuthSourceStale (token : AuthSourceToken)
  | clearAuthStale (provider : String)
  /-- By a set or a removal of the provider's credential or of its runtime key. -/
  | clearStaleAuthSource (provider : String) (source : Source)
  /-- Anything else: keys, credentials, the environment, the clock. -/
  | other (s : AuthStorage)

def step (s : AuthStorage) : Action → Option AuthStorage
  | .markAuthSourceStale token => some ((s.markAuthSourceStale token).getD s)
  | .clearAuthStale provider =>
    some { s with staleAuthSources := fun p => if p = provider then [] else s.staleAuthSources p }
  | .clearStaleAuthSource provider source =>
    some { s with
      staleAuthSources := fun p =>
        (s.staleAuthSources p).filter fun token => ¬ (p = provider ∧ token.source = source) }
  | .other s' => some { s' with staleAuthSources := s.staleAuthSources }

/-- The provider's marks are not cleared. -/
def Guard (provider : String) (_ : AuthStorage) : Action → Prop
  | .clearAuthStale p | .clearStaleAuthSource p _ => p ≠ provider
  | _ => True

theorem mem_mark {token token' : AuthSourceToken} {s' : AuthStorage} (h : s.markAuthSourceStale token = some s')
    (ht : token' ∈ s.staleAuthSources provider ∨ token' = token ∧ provider = token.provider) :
    token' ∈ s'.staleAuthSources provider := by
  unfold markAuthSourceStale at h
  split at h
  · cases h
  · cases h
    dsimp only
    split <;> grind

theorem stale_step {token : AuthSourceToken} {s' : AuthStorage} {a : Action} (h : token ∈ s.staleAuthSources provider)
    (hg : Guard provider s a) (hstep : step s a = some s') : token ∈ s'.staleAuthSources provider := by
  cases a with
  | markAuthSourceStale marked =>
    cases hstep
    cases hm : s.markAuthSourceStale marked with
    | none => exact h
    | some s' => exact mem_mark hm (.inl h)
  | clearAuthStale p =>
    cases hstep
    show token ∈ if provider = p then [] else s.staleAuthSources provider
    rwa [if_neg (Ne.symm hg)]
  | clearStaleAuthSource p source =>
    cases hstep
    exact List.mem_filter.2 ⟨h, by simp [Ne.symm hg]⟩
  | other s' =>
    cases hstep
    exact h

/-- The key that is used is the one that is reported. Once its token is marked, it is not returned again while the
provider's marks are not cleared: the first candidate that is not stale is used. -/
theorem key_reported (h : s.Usable provider) :
    (s.getApiKeyWithSourceToken provider).apiKey.isSome = s.hasAuth provider ∧
    (s.getApiKeyWithSourceToken provider).sourceToken = s.getCurrentAuthSourceToken provider ∧
    ((s.getApiKeyWithSourceToken provider).apiKey.isSome = true → ∃ token,
      (s.getApiKeyWithSourceToken provider).sourceToken = some token ∧
        s.getAuthStatusSource provider = some token.source.name) ∧
    ∀ token s₁ s', (s.getApiKeyWithSourceToken provider).sourceToken = some token →
      s.markAuthSourceStale token = some s₁ → Transition.GuardedRuns step (Guard provider) s₁ s' →
      s'.Usable provider → (s'.getApiKeyWithSourceToken provider).sourceToken ≠ some token ∧
        s'.getApiKeyWithSourceToken provider =
          (((s'.getAuthSourceCandidates provider).find? fun c => !s'.isAuthSourceStale provider c).map
            (s'.resultOf provider)).getD ⟨none, none, none⟩ := by
  have htoken : ∀ {s : AuthStorage}, s.Usable provider →
      (s.getApiKeyWithSourceToken provider).sourceToken = s.getCurrentAuthSourceToken provider := by
    intro s h
    rw [getApiKeyWithSourceToken_eq h, getCurrentAuthSourceToken]
    cases s.getAvailableAuthCandidate provider <;> rfl
  refine ⟨?_, htoken h, ?_, ?_⟩
  · rw [getApiKeyWithSourceToken_eq h, hasAuth]
    cases hc : s.getAvailableAuthCandidate provider with
    | none => rfl
    | some c => exact (candidate_spec h (List.mem_of_find?_eq_some hc)).1
  · intro hsome
    rw [htoken h, getCurrentAuthSourceToken, getAuthStatusSource]
    rw [getApiKeyWithSourceToken_eq h] at hsome
    cases hc : s.getAvailableAuthCandidate provider with
    | none =>
      rw [hc] at hsome
      cases hsome
    | some c =>
      obtain ⟨-, v, hv, hne⟩ := candidate_spec h (List.mem_of_find?_eq_some hc)
      exact ⟨⟨provider, c.source, c.identityFingerprint, v⟩, by simp [getAuthSourceTokenForCandidate, hv, hne], rfl⟩
  · intro token s₁ s' hreturned hmark hrun hlater
    rw [htoken h] at hreturned
    obtain ⟨c, -, hc⟩ := bind_eq_some_iff.1 hreturned
    obtain ⟨v, -, rfl⟩ := map_eq_some_iff.1 hc
    have hstale := hrun.keeps (P := fun s => _ ∈ s.staleAuthSources provider) (mem_mark hmark (.inr ⟨rfl, rfl⟩))
      fun _ _ _ h hg hstep => stale_step h hg hstep
    exact ⟨htoken hlater ▸ not_current_of_stale hstale, getApiKeyWithSourceToken_eq hlater⟩

/-- Stored credentials that have not expired, and a key in the environment. -/
def sample : AuthStorage where
  runtimeOverrides _ := none
  data _ := some (.oauth "access" "refresh" 1)
  staleAuthSources _ := []
  fallbackResolver _ := none
  findEnvKey _ := some "OPENAI_API_KEY"
  getEnvApiKey _ := some "sk-2"
  getAmbientEnvironmentIdentityMaterial := id
  resolveConfigValue := some
  resolveConfigValueUncached := some
  getOAuthProvider _ := some fun _ => "sk-1"
  now := 0
  sha256 := id
  refreshed _ := none

/-- The token of the stored credentials. -/
def sampleToken : AuthSourceToken :=
  ⟨"openai", .stored, "stored:stored\x00identity:openai:oauth",
    "stored:stored\x00value:openai:oauth\x00oauth:sk-1\x00refresh\x001"⟩

/-- The credentials are marked as stale, and with another provider's marks cleared the key of the environment is
used. -/
theorem key_reported_sample : (sample.getApiKeyWithSourceToken "openai").sourceToken = some sampleToken ∧
    ∃ s₁ s', sample.markAuthSourceStale sampleToken = some s₁ ∧
      Transition.GuardedRuns step (Guard "openai") s₁ s' ∧
      (s'.getApiKeyWithSourceToken "openai").sourceToken ≠ some sampleToken ∧
      (s'.getApiKeyWithSourceToken "openai").apiKey = some "sk-2" := by
  have htoken : (sample.getApiKeyWithSourceToken "openai").sourceToken = some sampleToken := rfl
  have husable : sample.Usable "openai" := ⟨by decide, rfl⟩
  have hmark : sample.markAuthSourceStale sampleToken = some _ := rfl
  have hother : "groq" ≠ "openai" := by decide
  obtain ⟨hne, hused⟩ := (key_reported husable).2.2.2 sampleToken _ _ htoken hmark
    (.single ⟨.clearAuthStale "groq", hother, rfl⟩) ⟨by decide, rfl⟩
  exact ⟨htoken, _, _, hmark, .single ⟨.clearAuthStale "groq", hother, rfl⟩, hne, congrArg (·.apiKey) hused⟩

end AuthStorage
end AuthSources
end Core
end RePrime
