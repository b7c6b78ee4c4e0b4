import Haive.Integrations.KnownHosts

/-!
# Integration resolution

Which account a task gets for an integration, as `shared/src/integrations/resolver.ts` decides it: the
choice made for the task, a grant, the preference of the user, the default of the administrator, the only
account. What the context maps is a function here. Each tier is a definition of its own; a tier that passes
over its provider says why.
-/

namespace Haive.Integrations

open Lib.Units

/-! ## What a resolution reads -/

inductive ConnectionScope
  | user
  | shared
  deriving DecidableEq

inductive ConnectionStatus
  | connected
  | needs_reauth
  | revoked
  | provider_unavailable
  deriving DecidableEq

structure ResolverConnection where
  id : Text
  providerId : Text
  scope : ConnectionScope
  ownerUserId : Text
  status : ConnectionStatus
  credential : Option Credential

inductive ProviderState
  | enabled
  | disabled
  | moduleDeactivated
  | moduleMissing
  | unknown
  deriving DecidableEq

/-- A provider comes with its state or with its switch alone. -/
structure ResolverProvider where
  id : Text
  categories : List Text
  state : ProviderState ⊕ Bool

inductive CategoryState
  | enabled
  | moduleDeactivated
  deriving DecidableEq

structure ResolverRepository where
  remoteUrl : Option Text
  restricted : Bool
  allowedConnectionIds : Text → Bool

structure ResolverChoice where
  providerId : Option Text
  connectionId : Option Text

structure ResolverPreference where
  providerId : Text
  connectionId : Option Text

structure ResolverContext where
  ownerUserId : Text
  repository : Option ResolverRepository
  providers : List ResolverProvider
  categoryStates : Text → Option CategoryState
  connections : List ResolverConnection
  choices : Text → Option ResolverChoice
  grants : Text → Option Text
  preferences : Text → Option ResolverPreference
  defaults : Text → Option Text

inductive ResolverTarget
  | category (id : Text)
  | provider (id : Text)

def ResolverTarget.category? : ResolverTarget → Option Text
  | category id => some id
  | provider _ => none

/-! ## What it answers -/

inductive UnresolvedReason
  | noProvider
  | providerDisabled
  | providerDeactivated
  | moduleDraining
  | providerMissing
  | noConnection
  | needsChoice
  | notAllowedByRepository
  | connectionUnavailable
  | noRepository
  | noRemote
  deriving DecidableEq

inductive ResolutionSource
  | task
  | grant
  | user
  | admin
  | only
  | pinned

inductive Tier
  | user
  | admin

def Tier.source : Tier → ResolutionSource
  | user => .user
  | admin => .admin

inductive SkipReason
  | disabled
  | providerDeactivated
  | providerMissing
  | notConnected
  | notAllowed
  | notForRepository

structure SkippedTier where
  tier : Tier
  providerId : Text
  why : SkipReason

inductive Outcome
  | resolved (providerId connectionId : Text) (source : ResolutionSource)
  | unresolved (reason : UnresolvedReason) (providerId connectionId : Option Text) (candidates : List Text)

structure TargetResolution where
  categoryId : Option Text
  outcome : Outcome
  skipped : List SkippedTier

/-! ## Ids -/

inductive ScopedKind
  | core
  | module
  deriving DecidableEq

def isLowerOrDigit (u : UInt16) : Bool := (0x61 ≤ u && u ≤ 0x7a) || (0x30 ≤ u && u ≤ 0x39)

def isSlugUnit (u : UInt16) : Bool := isLowerOrDigit u || u = 0x2d

def isIdUnit (u : UInt16) : Bool := isSlugUnit u || u = 0x5f

/-- A lower-case letter or digit, and behind it units that `rest` takes. -/
def isName (rest : UInt16 → Bool) : Text → Bool
  | [] => false
  | u :: more => isLowerOrDigit u && more.all rest

/-- `parseScopedId(id)?.kind`. -/
def scopedKind (id : Text) : Option ScopedKind :=
  if isName isIdUnit id then some .core
  else
    match id.splitOn 0x2e with
    | [first, moduleId, localId] =>
      if first = units "module" && isName isSlugUnit moduleId && isName isIdUnit localId then some .module else none
    | _ => none

def REPOSITORY_BOUND_CATEGORIES : List Text := [units "forge"]

/-! ## The resolution -/

section Resolve

variable (urls : Urls) (ctx : ResolverContext) (target : ResolverTarget)

def isBlank (text : Option Text) : Bool :=
  match text with
  | none => true
  | some text => trim text = []

def commonProvider (connections : List ResolverConnection) : Option Text :=
  match (connections.map ResolverConnection.providerId).eraseDups with
  | [id] => some id
  | _ => none

def targetProviders : List ResolverProvider :=
  ctx.providers.filter fun p =>
    match target with
    | .category category => p.categories.contains category
    | .provider pinned => p.id = pinned

def stateOf (id : Text) : ProviderState :=
  match ctx.providers.find? (·.id = id) with
  | none => if scopedKind id = some .module then .moduleMissing else .unknown
  | some provider =>
    match provider.state with
    | .inl state => state
    | .inr enabled => if enabled then .enabled else .disabled

inductive BlockedReason
  | deactivated
  | missing
  | disabled
  deriving DecidableEq

def BlockedReason.unresolved : BlockedReason → UnresolvedReason
  | deactivated => .providerDeactivated
  | missing => .providerMissing
  | disabled => .providerDisabled

def BlockedReason.skip : BlockedReason → SkipReason
  | deactivated => .providerDeactivated
  | missing => .providerMissing
  | disabled => .disabled

def blockedReason : ProviderState → BlockedReason
  | .moduleDeactivated => .deactivated
  | .moduleMissing => .missing
  | _ => .disabled

/-- `providerIds.has(id)`. -/
def isTargetProvider (id : Text) : Bool := (targetProviders ctx target).any (·.id = id)

/-- `enabledIds.has(id)`. -/
def isEnabledProvider (id : Text) : Bool :=
  (targetProviders ctx target).any fun p => p.id = id && stateOf ctx p.id = .enabled

def isRepositoryBound : Bool :=
  match target with
  | .category category => REPOSITORY_BOUND_CATEGORIES.contains category
  | .provider _ => (targetProviders ctx target).any fun p => p.categories.any REPOSITORY_BOUND_CATEGORIES.contains

def owned (c : ResolverConnection) : Bool := c.scope = .user && c.ownerUserId = ctx.ownerUserId

def fits (c : ResolverConnection) : Bool :=
  match ctx.repository, c.credential with
  | some repository, some credential => connectionCredentialFits urls c.providerId credential repository.remoteUrl
  | _, _ => false

def allowed (c : ResolverConnection) : Bool :=
  match ctx.repository with
  | none => true
  | some repository => ! repository.restricted || repository.allowedConnectionIds c.id

def fittingOf (connections : List ResolverConnection) : List ResolverConnection :=
  if isRepositoryBound ctx target then connections.filter (fits urls ctx) else connections

def declared : List ResolverConnection := ctx.connections.filter fun c => owned ctx c && isTargetProvider ctx target c.providerId
def active : List ResolverConnection := (declared ctx target).filter fun c => isEnabledProvider ctx target c.providerId
def fitting : List ResolverConnection := fittingOf urls ctx target (active ctx target)
def usable : List ResolverConnection := (fitting urls ctx target).filter (allowed ctx)
def usableIds : List Text := (usable urls ctx target).map ResolverConnection.id

def finish (connection : ResolverConnection) (source : ResolutionSource) : Outcome :=
  if connection.status = .connected then .resolved connection.providerId connection.id source
  else .unresolved .connectionUnavailable (some connection.providerId) (some connection.id) (usableIds urls ctx target)

inductive Account
  | absent
  | blocked (reason : UnresolvedReason) (providerId : Text)
  | selected (connection : ResolverConnection)

/-- The account that a choice or a grant names. A provider whose module is gone still proves the category. -/
def account (connectionId : Text) : Account :=
  match ctx.connections.find? fun x => x.id = connectionId && owned ctx x &&
      (isTargetProvider ctx target x.providerId || stateOf ctx x.providerId = .moduleMissing) with
  | none => .absent
  | some c =>
    let checkAllowed := if allowed ctx c then .selected c else .blocked .notAllowedByRepository c.providerId
    if ! isEnabledProvider ctx target c.providerId then .blocked (blockedReason (stateOf ctx c.providerId)).unresolved c.providerId
    else if isRepositoryBound ctx target then
      match ctx.repository with
      | none => .blocked .noRepository c.providerId
      | some repository =>
        if isBlank repository.remoteUrl then .blocked .noRemote c.providerId
        else if ! fits urls ctx c then .absent
        else checkAllowed
    else checkAllowed

/-- What a preference comes to, or why it is passed over. -/
def preferred (tier : Tier) (providerId : Text) (connectionId : Option Text) : Except SkippedTier Outcome :=
  if ! isEnabledProvider ctx target providerId then .error ⟨tier, providerId, (blockedReason (stateOf ctx providerId)).skip⟩
  else
    let own := (declared ctx target).filter fun c => c.providerId = providerId
    let ownFitting := fittingOf urls ctx target own
    let ownUsable := ownFitting.filter (allowed ctx)
    match ownUsable.find? fun c => some c.id = connectionId with
    | some named => .ok (finish urls ctx target named tier.source)
    | none =>
      match ownUsable with
      | [only] => .ok (finish urls ctx target only tier.source)
      | _ :: _ :: _ => .ok (.unresolved .needsChoice (some providerId) none (usableIds urls ctx target))
      | [] =>
        .error ⟨tier, providerId,
          if own = [] then .notConnected else if ownFitting = [] then .notForRepository else .notAllowed⟩

/-- The choice made for the task: it settles the matter, one way or the other. -/
def fromChoice (category : Text) (choice : ResolverChoice) : Outcome :=
  match choice.connectionId.map (account urls ctx target) with
  | some (.selected connection) => finish urls ctx target connection .task
  | some (.blocked reason providerId) => .unresolved reason (some providerId) none (usableIds urls ctx target)
  | _ =>
    if targetProviders ctx target = [] ∧ scopedKind category ≠ some .module then .unresolved .noProvider none none []
    else .unresolved .needsChoice choice.providerId none (usableIds urls ctx target)

def fromGrant (grantedId : Text) : Option Outcome :=
  match account urls ctx target grantedId with
  | .selected connection => some (finish urls ctx target connection .grant)
  | .blocked reason providerId => some (.unresolved reason (some providerId) none (usableIds urls ctx target))
  | .absent => none

/-- What stands against a category whose module is gone. -/
def categoryProblem (category : Text) : Option UnresolvedReason :=
  if scopedKind category = some .module then
    match ctx.categoryStates category with
    | some .moduleDeactivated => some .providerDeactivated
    | some .enabled => none
    | none => if (targetProviders ctx target).any (·.categories.contains category) then none else some .providerMissing
  else none

/-- Nothing names an account: the only one there is, or why there is none. -/
def fromAccounts : Outcome :=
  match target.category?.bind (categoryProblem ctx target) with
  | some reason => .unresolved reason none none []
  | none =>
    let pinned := match target with
      | .category _ => none
      | .provider id => some id
    if targetProviders ctx target = [] then .unresolved .noProvider pinned none []
    else
      match usable urls ctx target with
      | [only] => finish urls ctx target only (if pinned.isSome then .pinned else .only)
      | _ :: _ :: _ =>
        .unresolved .needsChoice (commonProvider (usable urls ctx target)) none (usableIds urls ctx target)
      | [] =>
        if declared ctx target = [] then .unresolved .noConnection none none []
        else if active ctx target = [] then
          let reasons := ((declared ctx target).map fun c => blockedReason (stateOf ctx c.providerId)).eraseDups
          let reason := match reasons with
            | [reason] => reason.unresolved
            | _ => .providerDisabled
          .unresolved reason (commonProvider (declared ctx target)) none []
        else if fitting urls ctx target = [] then
          let reason := match ctx.repository with
            | none => .noRepository
            | some repository => if isBlank repository.remoteUrl then .noRemote else .noConnection
          .unresolved reason (commonProvider (active ctx target)) none []
        else .unresolved .notAllowedByRepository (commonProvider (fitting urls ctx target)) none []

/-- A tier that is passed over is noted, and the next one is asked. -/
def orSkip (tier : Option (Except SkippedTier Outcome)) (skipped : List SkippedTier)
    (next : List SkippedTier → TargetResolution) : TargetResolution :=
  match tier with
  | none => next skipped
  | some (.ok outcome) => ⟨target.category?, outcome, skipped⟩
  | some (.error skip) => next (skipped ++ [skip])

/-- `resolveTarget` behind the checks of a pinned provider. -/
def resolveTiers : TargetResolution :=
  match target.category?.bind fun category => (ctx.choices category).map (fromChoice urls ctx target category) with
  | some outcome => ⟨target.category?, outcome, []⟩
  | none =>
    match (target.category?.bind ctx.grants).bind (fromGrant urls ctx target) with
    | some outcome => ⟨target.category?, outcome, []⟩
    | none =>
      let preference := (target.category?.bind ctx.preferences).map fun p =>
        preferred urls ctx target .user p.providerId p.connectionId
      let adminDefault := (target.category?.bind ctx.defaults).map fun providerId =>
        preferred urls ctx target .admin providerId none
      orSkip target preference [] fun skipped =>
        orSkip target adminDefault skipped fun skipped => ⟨target.category?, fromAccounts urls ctx target, skipped⟩

def resolveTarget : TargetResolution :=
  match target with
  | .category _ => resolveTiers urls ctx target
  | .provider pinned =>
    let state := stateOf ctx pinned
    if state = .moduleMissing ∨ state = .moduleDeactivated then
      ⟨none, .unresolved (blockedReason state).unresolved (some pinned) none [], []⟩
    else if targetProviders ctx target = [] then ⟨none, .unresolved .noProvider (some pinned) none [], []⟩
    else resolveTiers urls ctx target

end Resolve

/-! ## Requirements -/

inductive Access
  | read
  | write

structure IntegrationRequirement where
  id : Text
  target : ResolverTarget
  access : Access
  optional : Option Bool

inductive IntegrationResolution
  | resolved (requirementId : Text) (categoryId : Option Text) (providerId connectionId : Text) (access : Access)
    (source : ResolutionSource)
  | unresolved (requirementId : Text) (categoryId : Option Text) (optional : Bool) (reason : UnresolvedReason)
    (providerId connectionId : Option Text) (candidates : List Text)

def IntegrationRequirement.resolution (requirement : IntegrationRequirement) (result : TargetResolution) :
    IntegrationResolution :=
  match result.outcome with
  | .resolved providerId connectionId source =>
    .resolved requirement.id result.categoryId providerId connectionId requirement.access source
  | .unresolved reason providerId connectionId candidates =>
    .unresolved requirement.id result.categoryId (requirement.optional.getD false) reason providerId connectionId candidates

def ResolverTarget.key : ResolverTarget → Text
  | category id => units "category:" ++ id
  | provider id => units "provider:" ++ id

def resolveFrom (urls : Urls) (ctx : ResolverContext) :
    List (Text × TargetResolution) → List IntegrationRequirement → List IntegrationResolution
  | _, [] => []
  | resolved, requirement :: rest =>
    match resolved.lookup requirement.target.key with
    | some result => requirement.resolution result :: resolveFrom urls ctx resolved rest
    | none =>
      let result := resolveTarget urls ctx requirement.target
      requirement.resolution result :: resolveFrom urls ctx ((requirement.target.key, result) :: resolved) rest

def resolveRequirements (urls : Urls) (ctx : ResolverContext) (requirements : List IntegrationRequirement) :
    List IntegrationResolution := resolveFrom urls ctx [] requirements

theorem key_category_ne_key_provider (a b : Text) : (ResolverTarget.category a).key ≠ (ResolverTarget.provider b).key := by
  intro h
  have hcategory : units "category:" = 0x63 :: units "ategory:" := by decide
  have hprovider : units "provider:" = 0x70 :: units "rovider:" := by decide
  rw [ResolverTarget.key, ResolverTarget.key, hcategory, hprovider, List.cons_append, List.cons_append] at h
  exact absurd (List.cons.inj h).1 (by decide)

theorem key_injective : Function.Injective ResolverTarget.key := by
  intro target target' h
  cases target <;> cases target'
  · exact congrArg _ (List.append_cancel_left h)
  · exact absurd h (key_category_ne_key_provider _ _)
  · exact absurd h.symm (key_category_ne_key_provider _ _)
  · exact congrArg _ (List.append_cancel_left h)

theorem resolveFrom_eq (urls : Urls) (ctx : ResolverContext) (requirements : List IntegrationRequirement) :
    ∀ resolved : List (Text × TargetResolution),
      (∀ target result, resolved.lookup (ResolverTarget.key target) = some result → result = resolveTarget urls ctx target) →
      resolveFrom urls ctx resolved requirements = requirements.map fun r => r.resolution (resolveTarget urls ctx r.target) := by
  induction requirements with
  | nil => exact fun _ _ => rfl
  | cons requirement rest ih =>
    intro resolved hresolved
    rw [resolveFrom, List.map_cons]
    split
    · next result hlookup => rw [hresolved _ _ hlookup, ih resolved hresolved]
    · dsimp only
      rw [ih]
      intro target result hlookup
      rw [List.lookup_cons] at hlookup
      split at hlookup
      · next hkey =>
        obtain rfl := key_injective (eq_of_beq hkey)
        exact (Option.some.inj hlookup).symm
      · exact hresolved target result hlookup

theorem resolveRequirements_eq (urls : Urls) (ctx : ResolverContext) (requirements : List IntegrationRequirement) :
    resolveRequirements urls ctx requirements = requirements.map fun r => r.resolution (resolveTarget urls ctx r.target) :=
  resolveFrom_eq urls ctx requirements [] fun _ _ h => by cases h

end Haive.Integrations
