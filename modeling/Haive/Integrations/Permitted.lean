import Haive.Integrations.Resolver
import Haive.Lib.ListFacts

/-!
# Permitted accounts

Every account that a resolution hands out or offers is the owner's own and permitted for the target
(`Permitted`), by whichever tier it is reached. The answer does not depend on the accounts of others, nor on
the order in which accounts and providers come (`resolveTarget_alike`).
-/

namespace Haive.Integrations

open Lib.Units

/-! ## What is permitted -/

def ResolverProvider.Enabled (p : ResolverProvider) : Prop := p.state = .inl .enabled ∨ p.state = .inr true

/-- The provider declares the category, or it is the pinned one. -/
def ResolverTarget.Names (target : ResolverTarget) (p : ResolverProvider) : Prop :=
  match target with
  | .category id => id ∈ p.categories
  | .provider id => p.id = id

def RepositoryBound (ctx : ResolverContext) (target : ResolverTarget) : Prop :=
  match target with
  | .category category => category ∈ REPOSITORY_BOUND_CATEGORIES
  | .provider pinned => ∃ p ∈ ctx.providers, p.id = pinned ∧ ∃ category ∈ p.categories, category ∈ REPOSITORY_BOUND_CATEGORIES

structure Permitted (urls : Urls) (ctx : ResolverContext) (target : ResolverTarget) (c : ResolverConnection) : Prop where
  member : c ∈ ctx.connections
  owner : c.scope = .user ∧ c.ownerUserId = ctx.ownerUserId
  provider : ∃ p ∈ ctx.providers, p.id = c.providerId ∧ p.Enabled ∧ target.Names p
  allowed : ∀ repository, ctx.repository = some repository → repository.restricted = true →
    repository.allowedConnectionIds c.id = true
  fits : RepositoryBound ctx target → ∃ repository credential, ctx.repository = some repository ∧
    c.credential = some credential ∧ connectionCredentialFits urls c.providerId credential repository.remoteUrl = true

def Outcome.Sound (urls : Urls) (ctx : ResolverContext) (target : ResolverTarget) : Outcome → Prop
  | .resolved providerId connectionId _ =>
    ∃ c, Permitted urls ctx target c ∧ c.id = connectionId ∧ c.providerId = providerId ∧ c.status = .connected
  | .unresolved _ _ _ candidates => ∀ id ∈ candidates, ∃ c, Permitted urls ctx target c ∧ c.id = id

structure Distinct (ctx : ResolverContext) : Prop where
  providers : (ctx.providers.map ResolverProvider.id).Nodup
  connections : (ctx.connections.map ResolverConnection.id).Nodup

section Sound

variable {urls : Urls} {ctx : ResolverContext} {target : ResolverTarget} (hctx : Distinct ctx)

theorem mem_targetProviders {p : ResolverProvider} : p ∈ targetProviders ctx target ↔ p ∈ ctx.providers ∧ target.Names p := by
  rw [targetProviders, List.mem_filter]
  cases target <;> simp [ResolverTarget.Names]

theorem isRepositoryBound_iff : isRepositoryBound ctx target = true ↔ RepositoryBound ctx target := by
  cases target with
  | category category => exact List.contains_iff_mem
  | provider pinned =>
    show (targetProviders ctx (.provider pinned)).any _ = true ↔ _
    rw [List.any_eq_true]
    constructor
    · rintro ⟨p, hp, hany⟩
      obtain ⟨hmem, hname⟩ := mem_targetProviders.mp hp
      obtain ⟨category, hcategory, hbound⟩ := List.any_eq_true.mp hany
      exact ⟨p, hmem, hname, category, hcategory, List.contains_iff_mem.mp hbound⟩
    · rintro ⟨p, hmem, hname, category, hcategory, hbound⟩
      exact ⟨p, mem_targetProviders.mpr ⟨hmem, hname⟩,
        List.any_eq_true.mpr ⟨category, hcategory, List.contains_iff_mem.mpr hbound⟩⟩

include hctx in
theorem stateOf_eq {p : ResolverProvider} (hp : p ∈ ctx.providers) (h : stateOf ctx p.id = .enabled) : p.Enabled := by
  have hfind : ctx.providers.find? (·.id = p.id) = some p := by
    cases hfind : ctx.providers.find? (·.id = p.id) with
    | none => exact absurd rfl (of_decide_eq_false (Bool.eq_false_iff.mpr (List.find?_eq_none.mp hfind p hp)))
    | some q =>
      have hsame : q.id = p.id := by simpa using List.find?_some hfind
      rw [List.inj_on_of_nodup_map hctx.providers (List.mem_of_find?_eq_some hfind) hp hsame]
  rw [stateOf, hfind] at h
  dsimp only at h
  rw [ResolverProvider.Enabled]
  split at h
  · next state hstate => exact .inl (hstate.trans (congrArg _ h))
  · next enabled hstate =>
    split at h
    · next htrue => exact .inr (hstate.trans (congrArg _ htrue))
    · cases h

include hctx in
theorem permitted_of {c : ResolverConnection} (hmem : c ∈ ctx.connections) (howned : owned ctx c = true)
    (henabled : isEnabledProvider ctx target c.providerId = true) (hallowed : allowed ctx c = true)
    (hfits : isRepositoryBound ctx target = true → fits urls ctx c = true) : Permitted urls ctx target c where
  member := hmem
  owner := by simpa [owned] using howned
  provider := by
    obtain ⟨p, hp, hmatch⟩ := List.any_eq_true.mp henabled
    obtain ⟨hid, hstate⟩ := Bool.and_eq_true_iff.mp hmatch
    obtain ⟨hprovider, hnames⟩ := mem_targetProviders.mp hp
    exact ⟨p, hprovider, of_decide_eq_true hid, stateOf_eq hctx hprovider (of_decide_eq_true hstate), hnames⟩
  allowed := by
    intro repository hrepository hrestricted
    rw [Integrations.allowed, hrepository] at hallowed
    simpa [hrestricted] using hallowed
  fits := by
    intro hbound
    have h := hfits (isRepositoryBound_iff.mpr hbound)
    rw [Integrations.fits] at h
    split at h
    · next repository credential hrepository hcredential => exact ⟨repository, credential, hrepository, hcredential, h⟩
    · cases h

theorem mem_fittingOf {l : List ResolverConnection} {c : ResolverConnection} : c ∈ fittingOf urls ctx target l ↔
    c ∈ l ∧ (isRepositoryBound ctx target = true → fits urls ctx c = true) := by
  rw [fittingOf]
  split
  · next hbound => rw [List.mem_filter]; exact and_congr_right fun _ => ⟨fun h _ => h, fun h => h hbound⟩
  · next hbound => exact ⟨fun h => ⟨h, fun h => absurd h hbound⟩, fun h => h.1⟩

include hctx in
theorem permitted_of_usable {c : ResolverConnection} (h : c ∈ usable urls ctx target) : Permitted urls ctx target c := by
  obtain ⟨hfitting, hallowed⟩ := List.mem_filter.mp h
  obtain ⟨hactive, hfits⟩ := mem_fittingOf.mp hfitting
  obtain ⟨hdeclared, henabled⟩ := List.mem_filter.mp hactive
  obtain ⟨hmem, hown⟩ := List.mem_filter.mp hdeclared
  exact permitted_of hctx hmem (Bool.and_eq_true_iff.mp hown).1 henabled hallowed hfits

include hctx in
theorem permitted_of_account {connectionId : Text} {c : ResolverConnection}
    (h : account urls ctx target connectionId = .selected c) : Permitted urls ctx target c := by
  rw [account] at h
  split at h
  · cases h
  · next found hfind =>
    have hmem := List.mem_of_find?_eq_some hfind
    have hsome := List.find?_some hfind
    rw [Bool.and_eq_true, Bool.and_eq_true] at hsome
    have hlast : ∀ {reason providerId}, (if allowed ctx found = true then Account.selected found
        else .blocked reason providerId) = .selected c → found = c ∧ allowed ctx found = true := by
      intro reason providerId h
      split at h
      · next hallowed => exact ⟨Account.selected.inj h, hallowed⟩
      · cases h
    dsimp only at h
    split at h
    · cases h
    · next henabled =>
      have henabled : isEnabledProvider ctx target found.providerId = true := by simpa using henabled
      split at h
      · split at h
        · cases h
        · split at h
          · cases h
          · split at h
            · cases h
            · next hfits =>
              obtain ⟨rfl, hallowed⟩ := hlast h
              exact permitted_of hctx hmem hsome.1.2 henabled hallowed fun _ => by simpa using hfits
      · next hbound =>
        obtain ⟨rfl, hallowed⟩ := hlast h
        exact permitted_of hctx hmem hsome.1.2 henabled hallowed fun h => absurd h hbound

/-! ## The tiers -/

include hctx in
theorem usableIds_sound {id : Text} (h : id ∈ usableIds urls ctx target) : ∃ c, Permitted urls ctx target c ∧ c.id = id := by
  obtain ⟨c, hc, rfl⟩ := List.mem_map.mp h
  exact ⟨c, permitted_of_usable hctx hc, rfl⟩

include hctx in
theorem finish_sound {c : ResolverConnection} (hc : Permitted urls ctx target c) (source : ResolutionSource) :
    (finish urls ctx target c source).Sound urls ctx target := by
  rw [finish]
  split
  · next hconnected => exact ⟨c, hc, rfl, rfl, hconnected⟩
  · exact fun id hid => usableIds_sound hctx hid

include hctx in
theorem preferred_sound {tier : Tier} {providerId : Text} {connectionId : Option Text} {outcome : Outcome}
    (h : preferred urls ctx target tier providerId connectionId = .ok outcome) : outcome.Sound urls ctx target := by
  rw [preferred] at h
  split at h
  · cases h
  · next henabled =>
    have henabled : isEnabledProvider ctx target providerId = true := by simpa using henabled
    have hown : ∀ c ∈ (fittingOf urls ctx target ((declared ctx target).filter fun c => c.providerId = providerId)).filter
        (allowed ctx), Permitted urls ctx target c := by
      intro c hc
      obtain ⟨hfitting, hallowed⟩ := List.mem_filter.mp hc
      obtain ⟨hown, hfits⟩ := mem_fittingOf.mp hfitting
      obtain ⟨hdeclared, hprovider⟩ := List.mem_filter.mp hown
      obtain ⟨hmem, hown⟩ := List.mem_filter.mp hdeclared
      refine permitted_of hctx hmem (Bool.and_eq_true_iff.mp hown).1 ?_ hallowed hfits
      rwa [of_decide_eq_true hprovider]
    dsimp only at h
    split at h
    · next named hnamed =>
      cases h
      exact finish_sound hctx (hown named (List.mem_of_find?_eq_some hnamed)) _
    · split at h
      · next only honly =>
        cases h
        exact finish_sound hctx (hown only (honly ▸ List.mem_cons_self)) _
      · cases h
        exact fun id hid => usableIds_sound hctx hid
      · cases h

include hctx in
theorem fromChoice_sound (category : Text) (choice : ResolverChoice) :
    (fromChoice urls ctx target category choice).Sound urls ctx target := by
  rw [fromChoice]
  split
  · next connection hpicked =>
    obtain ⟨id, -, hselected⟩ := Option.map_eq_some_iff.mp hpicked
    exact finish_sound hctx (permitted_of_account hctx hselected) _
  · exact fun id hid => usableIds_sound hctx hid
  · split
    · exact fun id hid => absurd hid List.not_mem_nil
    · exact fun id hid => usableIds_sound hctx hid

include hctx in
theorem fromGrant_sound {grantedId : Text} {outcome : Outcome} (h : fromGrant urls ctx target grantedId = some outcome) :
    outcome.Sound urls ctx target := by
  rw [fromGrant] at h
  split at h
  · next connection hselected =>
    cases h
    exact finish_sound hctx (permitted_of_account hctx hselected) _
  · cases h
    exact fun id hid => usableIds_sound hctx hid
  · cases h

include hctx in
theorem fromAccounts_sound : (fromAccounts urls ctx target).Sound urls ctx target := by
  have hnone : ∀ reason providerId connectionId, (Outcome.unresolved reason providerId connectionId []).Sound urls ctx target :=
    fun _ _ _ id hid => absurd hid List.not_mem_nil
  unfold fromAccounts
  split
  · exact hnone _ _ _
  · dsimp only
    split
    · exact hnone _ _ _
    · split
      · next only honly => exact finish_sound hctx (permitted_of_usable hctx (honly ▸ List.mem_cons_self)) _
      · exact fun id hid => usableIds_sound hctx hid
      · split
        · exact hnone _ _ _
        · split
          · exact hnone _ _ _
          · split <;> exact hnone _ _ _

theorem orSkip_sound {tier : Option (Except SkippedTier Outcome)} {skipped : List SkippedTier}
    {next : List SkippedTier → TargetResolution} (htier : ∀ outcome, tier = some (.ok outcome) → outcome.Sound urls ctx target)
    (hnext : ∀ skipped, (next skipped).outcome.Sound urls ctx target) :
    (orSkip target tier skipped next).outcome.Sound urls ctx target := by
  cases tier with
  | none => exact hnext _
  | some result =>
    cases result with
    | ok outcome => exact htier outcome rfl
    | error skip => exact hnext _

include hctx in
theorem resolveTiers_sound : (resolveTiers urls ctx target).outcome.Sound urls ctx target := by
  rw [resolveTiers]
  split
  · next outcome hchoice =>
    obtain ⟨category, -, hmap⟩ := Option.bind_eq_some_iff.mp hchoice
    obtain ⟨choice, -, rfl⟩ := Option.map_eq_some_iff.mp hmap
    exact fromChoice_sound hctx category choice
  · split
    · next outcome hgrant =>
      obtain ⟨grantedId, -, hgrant⟩ := Option.bind_eq_some_iff.mp hgrant
      exact fromGrant_sound hctx hgrant
    · refine orSkip_sound (fun outcome h => ?_) fun skipped => orSkip_sound (fun outcome h => ?_) fun skipped =>
        fromAccounts_sound hctx
      · obtain ⟨preference, -, h⟩ := Option.map_eq_some_iff.mp h
        exact preferred_sound hctx h
      · obtain ⟨providerId, -, h⟩ := Option.map_eq_some_iff.mp h
        exact preferred_sound hctx h

include hctx in
theorem resolveTarget_sound : (resolveTarget urls ctx target).outcome.Sound urls ctx target := by
  have hnone : ∀ reason providerId, (Outcome.unresolved reason providerId none []).Sound urls ctx target :=
    fun _ _ id hid => absurd hid List.not_mem_nil
  cases target with
  | category category => exact resolveTiers_sound hctx
  | provider pinned =>
    rw [resolveTarget]
    split
    · exact hnone _ _
    · split
      · exact hnone _ _
      · exact resolveTiers_sound hctx

end Sound

/-! ## Order, and the accounts of others -/

/-- The same but for the order of the candidates. -/
inductive Outcome.Alike : Outcome → Outcome → Prop
  | resolved (providerId connectionId : Text) (source : ResolutionSource) :
    Alike (.resolved providerId connectionId source) (.resolved providerId connectionId source)
  | unresolved (reason : UnresolvedReason) (providerId connectionId : Option Text) {candidates candidates' : List Text} :
    candidates.Perm candidates' →
    Alike (.unresolved reason providerId connectionId candidates) (.unresolved reason providerId connectionId candidates')

structure TargetResolution.Alike (r r' : TargetResolution) : Prop where
  categoryId : r.categoryId = r'.categoryId
  outcome : r.outcome.Alike r'.outcome
  skipped : r.skipped = r'.skipped

def ResolverContext.withAccounts (ctx : ResolverContext) (providers : List ResolverProvider)
    (connections : List ResolverConnection) : ResolverContext :=
  { ctx with providers := providers, connections := connections }

structure SameForOwner (ctx ctx' : ResolverContext) : Prop where
  rest : ctx' = ctx.withAccounts ctx'.providers ctx'.connections
  providers : ctx.providers.Perm ctx'.providers
  connections : (ctx.connections.filter (owned ctx)).Perm (ctx'.connections.filter (owned ctx))

/-- The tiers as one expression: the operator's choice, the grant, then the fallbacks. -/
theorem resolveTiers_eq (urls : Urls) (ctx : ResolverContext) (target : ResolverTarget) :
    resolveTiers urls ctx target =
      (target.category?.bind fun category => (ctx.choices category).map (fromChoice urls ctx target category)).elim
        (((target.category?.bind ctx.grants).bind (fromGrant urls ctx target)).elim
          (orSkip target ((target.category?.bind ctx.preferences).map fun p =>
              preferred urls ctx target .user p.providerId p.connectionId) [] fun skipped =>
            orSkip target ((target.category?.bind ctx.defaults).map fun providerId =>
              preferred urls ctx target .admin providerId none) skipped fun skipped =>
                ⟨target.category?, fromAccounts urls ctx target, skipped⟩)
          fun outcome => ⟨target.category?, outcome, []⟩)
        fun outcome => ⟨target.category?, outcome, []⟩ := by
  rw [resolveTiers]
  split
  · next hchosen => rw [hchosen, Option.elim_some]
  · next hchosen =>
    rw [hchosen, Option.elim_none]
    split
    · next hgranted => rw [hgranted, Option.elim_some]
    · next hgranted => rw [hgranted, Option.elim_none]

section Order

variable {urls : Urls} {ctx : ResolverContext} {target : ResolverTarget} {ps : List ResolverProvider}
  {cs : List ResolverConnection} (hctx : Distinct ctx) (hps : ctx.providers.Perm ps)
  (hcs : (ctx.connections.filter (owned ctx)).Perm (cs.filter (owned ctx)))

theorem commonProvider_perm {l l' : List ResolverConnection} (h : l.Perm l') : commonProvider l = commonProvider l' := by
  have hperm := Lib.perm_eraseDups (h.map ResolverConnection.providerId)
  rw [commonProvider, commonProvider]
  rcases Lib.perm_cases hperm with ⟨hl, hl'⟩ | ⟨id, hl, hl'⟩ | ⟨a, b, rest, a', b', rest', hl, hl'⟩ <;> rw [hl, hl']

include hctx hps

theorem stateOf_perm : stateOf (ctx.withAccounts ps cs) = stateOf ctx := by
  funext id
  have hfind : ctx.providers.find? (·.id = id) = ps.find? (·.id = id) := by
    refine Lib.find?_perm hps fun p hp q hq hpid hqid => List.inj_on_of_nodup_map hctx.providers hp hq ?_
    rw [of_decide_eq_true hpid, of_decide_eq_true hqid]
  rw [stateOf, stateOf, hfind]
  rfl

omit hctx in
theorem targetProviders_perm : (targetProviders ctx target).Perm (targetProviders (ctx.withAccounts ps cs) target) :=
  hps.filter _

omit hctx in
theorem isTargetProvider_perm : isTargetProvider (ctx.withAccounts ps cs) target = isTargetProvider ctx target :=
  funext fun _ => (targetProviders_perm hps).symm.any_eq

theorem isEnabledProvider_perm : isEnabledProvider (ctx.withAccounts ps cs) target = isEnabledProvider ctx target := by
  funext id
  rw [isEnabledProvider, isEnabledProvider, stateOf_perm hctx hps]
  exact (targetProviders_perm hps).symm.any_eq

omit hctx in
theorem isRepositoryBound_perm : isRepositoryBound (ctx.withAccounts ps cs) target = isRepositoryBound ctx target := by
  cases target with
  | category id => rfl
  | provider id => exact (targetProviders_perm hps).symm.any_eq

omit hctx in
theorem fittingOf_perm {l l' : List ResolverConnection} (h : l.Perm l') :
    (fittingOf urls ctx target l).Perm (fittingOf urls (ctx.withAccounts ps cs) target l') := by
  rw [fittingOf, fittingOf, isRepositoryBound_perm hps]
  split
  · exact h.filter _
  · exact h

include hcs

omit hctx in
theorem declared_perm : (declared ctx target).Perm (declared (ctx.withAccounts ps cs) target) := by
  have hsplit : ∀ l : List ResolverConnection, l.filter (fun c => owned ctx c && isTargetProvider ctx target c.providerId) =
      (l.filter (owned ctx)).filter fun c => isTargetProvider ctx target c.providerId := fun l => by
    rw [List.filter_filter]
    exact List.filter_congr fun c _ => Bool.and_comm _ _
  rw [declared, declared, isTargetProvider_perm hps, hsplit]
  exact (hcs.filter _).trans (List.Perm.of_eq (hsplit cs).symm)

theorem active_perm : (active ctx target).Perm (active (ctx.withAccounts ps cs) target) := by
  rw [active, active, isEnabledProvider_perm hctx hps]
  exact (declared_perm hps hcs).filter _

theorem fitting_perm : (fitting urls ctx target).Perm (fitting urls (ctx.withAccounts ps cs) target) :=
  fittingOf_perm hps (active_perm hctx hps hcs)

theorem usable_perm : (usable urls ctx target).Perm (usable urls (ctx.withAccounts ps cs) target) :=
  (fitting_perm hctx hps hcs).filter _

theorem usableIds_perm : (usableIds urls ctx target).Perm (usableIds urls (ctx.withAccounts ps cs) target) :=
  (usable_perm hctx hps hcs).map _

theorem finish_alike (c : ResolverConnection) (source : ResolutionSource) :
    (finish urls ctx target c source).Alike (finish urls (ctx.withAccounts ps cs) target c source) := by
  rw [finish, finish]
  split
  · exact .resolved _ _ _
  · exact .unresolved _ _ _ (usableIds_perm hctx hps hcs)

theorem account_perm : account urls (ctx.withAccounts ps cs) target = account urls ctx target := by
  funext connectionId
  have hfind : ∀ found : ResolverConnection → Bool, ctx.connections.find? (fun x => x.id = connectionId && owned ctx x && found x) =
      cs.find? (fun x => x.id = connectionId && owned ctx x && found x) := by
    intro found
    have hfilter : ∀ l : List ResolverConnection, l.find? (fun x => x.id = connectionId && owned ctx x && found x) =
        (l.filter (owned ctx)).find? fun x => x.id = connectionId && found x := fun l => by
      rw [List.find?_filter]
      refine congrArg (l.find? ·) (funext fun x => ?_)
      cases owned ctx x <;> simp
    rw [hfilter, hfilter]
    refine Lib.find?_perm hcs fun x hx y hy hxid hyid => ?_
    refine List.inj_on_of_nodup_map hctx.connections (List.mem_of_mem_filter hx) (List.mem_of_mem_filter hy) ?_
    rw [of_decide_eq_true (Bool.and_eq_true_iff.mp hxid).1, of_decide_eq_true (Bool.and_eq_true_iff.mp hyid).1]
  rw [account, account, stateOf_perm hctx hps, isEnabledProvider_perm hctx hps, isRepositoryBound_perm hps,
    isTargetProvider_perm hps, hfind]
  rfl

def TierAlike : Except SkippedTier Outcome → Except SkippedTier Outcome → Prop
  | .ok outcome, .ok outcome' => outcome.Alike outcome'
  | .error skip, .error skip' => skip = skip'
  | _, _ => False

theorem preferred_alike (tier : Tier) (providerId : Text) (connectionId : Option Text) :
    TierAlike (preferred urls ctx target tier providerId connectionId)
      (preferred urls (ctx.withAccounts ps cs) target tier providerId connectionId) := by
  have hown : ((declared ctx target).filter fun c => decide (c.providerId = providerId)).Perm
      ((declared (ctx.withAccounts ps cs) target).filter fun c => decide (c.providerId = providerId)) :=
    (declared_perm hps hcs).filter _
  have hfitting : (fittingOf urls ctx target _).Perm (fittingOf urls (ctx.withAccounts ps cs) target _) :=
    fittingOf_perm hps hown
  have husable := hfitting.filter (allowed ctx)
  have hmem : ∀ c ∈ (fittingOf urls ctx target ((declared ctx target).filter fun c => c.providerId = providerId)).filter
      (allowed ctx), c ∈ ctx.connections := fun c hc =>
    List.mem_of_mem_filter (List.mem_of_mem_filter (mem_fittingOf.mp (List.mem_of_mem_filter hc)).1)
  have hnamed := Lib.find?_perm (p := fun c => decide (some c.id = connectionId)) husable fun x hx y hy hxid hyid => by
    refine List.inj_on_of_nodup_map hctx.connections (hmem x hx) (hmem y hy) (Option.some.inj ?_)
    rw [of_decide_eq_true hxid, of_decide_eq_true hyid]
  rw [preferred, preferred, stateOf_perm hctx hps, isEnabledProvider_perm hctx hps]
  split
  · exact rfl
  · dsimp only
    have hallowed : allowed (ctx.withAccounts ps cs) = allowed ctx := rfl
    rw [hallowed, ← hnamed]
    split
    · exact finish_alike hctx hps hcs _ _
    · rcases Lib.perm_cases husable with ⟨hl, hl'⟩ | ⟨only, hl, hl'⟩ | ⟨a, b, rest, a', b', rest', hl, hl'⟩
      · rw [hl, hl']
        show SkippedTier.mk _ _ _ = SkippedTier.mk _ _ _
        simp only [Lib.perm_nil_iff hown, Lib.perm_nil_iff hfitting]
      · rw [hl, hl']
        exact finish_alike hctx hps hcs _ _
      · rw [hl, hl']
        exact .unresolved _ _ _ (usableIds_perm hctx hps hcs)

theorem fromChoice_alike (category : Text) (choice : ResolverChoice) :
    (fromChoice urls ctx target category choice).Alike (fromChoice urls (ctx.withAccounts ps cs) target category choice) := by
  have hnil := Lib.perm_nil_iff (@targetProviders_perm ctx target ps cs hps)
  rw [fromChoice, fromChoice, account_perm hctx hps hcs]
  split
  · exact finish_alike hctx hps hcs _ _
  · exact .unresolved _ _ _ (usableIds_perm hctx hps hcs)
  · simp only [hnil]
    split
    · exact .unresolved _ _ _ (List.Perm.refl _)
    · exact .unresolved _ _ _ (usableIds_perm hctx hps hcs)

theorem fromGrant_alike (grantedId : Text) :
    (fromGrant urls ctx target grantedId = none ∧ fromGrant urls (ctx.withAccounts ps cs) target grantedId = none) ∨
      ∃ outcome outcome', fromGrant urls ctx target grantedId = some outcome ∧
        fromGrant urls (ctx.withAccounts ps cs) target grantedId = some outcome' ∧ outcome.Alike outcome' := by
  rw [fromGrant, fromGrant, account_perm hctx hps hcs]
  split
  · exact .inr ⟨_, _, rfl, rfl, finish_alike hctx hps hcs _ _⟩
  · exact .inr ⟨_, _, rfl, rfl, .unresolved _ _ _ (usableIds_perm hctx hps hcs)⟩
  · exact .inl ⟨rfl, rfl⟩

omit hctx hcs in
theorem categoryProblem_perm (category : Text) :
    categoryProblem (ctx.withAccounts ps cs) target category = categoryProblem ctx target category := by
  have hany : (targetProviders (ctx.withAccounts ps cs) target).any (·.categories.contains category) =
      (targetProviders ctx target).any (·.categories.contains category) := (targetProviders_perm hps).symm.any_eq
  rw [categoryProblem, categoryProblem, hany]
  rfl

theorem fromAccounts_alike : (fromAccounts urls ctx target).Alike (fromAccounts urls (ctx.withAccounts ps cs) target) := by
  have hproblem : categoryProblem (ctx.withAccounts ps cs) target = categoryProblem ctx target :=
    funext (categoryProblem_perm hps)
  have hrefl : ∀ reason providerId, (Outcome.unresolved reason providerId none []).Alike (.unresolved reason providerId none []) :=
    fun _ _ => .unresolved _ _ _ (List.Perm.refl _)
  have hproviders : targetProviders (ctx.withAccounts ps cs) target = [] ↔ targetProviders ctx target = [] :=
    (Lib.perm_nil_iff (targetProviders_perm hps)).symm
  have hdeclared := @declared_perm ctx target ps cs hps hcs
  have hactive := @active_perm ctx target ps cs hctx hps hcs
  have hfitting := @fitting_perm urls ctx target ps cs hctx hps hcs
  have husable := @usable_perm urls ctx target ps cs hctx hps hcs
  have hreasons := Lib.perm_eraseDups ((hdeclared.map fun c => blockedReason (stateOf ctx c.providerId)))
  unfold fromAccounts
  rw [hproblem, stateOf_perm hctx hps]
  split
  · exact hrefl _ _
  · simp only [hproviders, ← Lib.perm_nil_iff hdeclared, ← Lib.perm_nil_iff hactive, ← Lib.perm_nil_iff hfitting,
      ← commonProvider_perm hdeclared, ← commonProvider_perm hactive, ← commonProvider_perm hfitting,
      ← commonProvider_perm husable]
    split
    · exact hrefl _ _
    · rcases Lib.perm_cases husable with ⟨hl, hl'⟩ | ⟨only, hl, hl'⟩ | ⟨a, b, rest, a', b', rest', hl, hl'⟩
      · rw [hl, hl']
        dsimp only
        split
        · exact hrefl _ _
        · split
          · rcases Lib.perm_cases hreasons with ⟨hr, hr'⟩ | ⟨only, hr, hr'⟩ | ⟨a, b, rest, a', b', rest', hr, hr'⟩ <;>
              rw [hr, hr'] <;> exact hrefl _ _
          · split <;> exact hrefl _ _
      · rw [hl, hl']
        exact finish_alike hctx hps hcs _ _
      · rw [hl, hl']
        exact .unresolved _ _ _ (usableIds_perm hctx hps hcs)

omit hctx hps hcs in
theorem orSkip_alike {tier tier' : Option (Except SkippedTier Outcome)} {next next' : List SkippedTier → TargetResolution}
    (htier : (tier = none ∧ tier' = none) ∨ ∃ r r', tier = some r ∧ tier' = some r' ∧ TierAlike r r')
    (hnext : ∀ skipped, (next skipped).Alike (next' skipped)) (skipped : List SkippedTier) :
    (orSkip target tier skipped next).Alike (orSkip target tier' skipped next') := by
  rcases htier with ⟨rfl, rfl⟩ | ⟨r, r', rfl, rfl, halike⟩
  · exact hnext skipped
  · cases r with
    | ok outcome =>
      cases r' with
      | ok outcome' => exact ⟨rfl, halike, rfl⟩
      | error skip' => cases halike
    | error skip =>
      cases r' with
      | ok outcome' => cases halike
      | error skip' =>
        obtain rfl : skip = skip' := halike
        exact hnext (skipped ++ [skip])

theorem resolveTiers_alike :
    (resolveTiers urls ctx target).Alike (resolveTiers urls (ctx.withAccounts ps cs) target) := by
  have hpreferred : ∀ {α : Type} (named : Option α) (tier : Tier) (providerId : α → Text) (connectionId : α → Option Text),
      (named.map (fun p => preferred urls ctx target tier (providerId p) (connectionId p)) = none ∧
        named.map (fun p => preferred urls (ctx.withAccounts ps cs) target tier (providerId p) (connectionId p)) = none) ∨
      ∃ r r', named.map (fun p => preferred urls ctx target tier (providerId p) (connectionId p)) = some r ∧
        named.map (fun p => preferred urls (ctx.withAccounts ps cs) target tier (providerId p) (connectionId p)) = some r' ∧
        TierAlike r r' := by
    intro α named tier providerId connectionId
    cases named with
    | none => exact .inl ⟨rfl, rfl⟩
    | some p => exact .inr ⟨_, _, rfl, rfl, preferred_alike hctx hps hcs tier _ _⟩
  have hlast : ∀ skipped, (⟨target.category?, fromAccounts urls ctx target, skipped⟩ : TargetResolution).Alike
      ⟨target.category?, fromAccounts urls (ctx.withAccounts ps cs) target, skipped⟩ := fun skipped =>
    ⟨rfl, fromAccounts_alike hctx hps hcs, rfl⟩
  have hadmin : ∀ skipped, (orSkip target ((target.category?.bind ctx.defaults).map fun providerId =>
        preferred urls ctx target .admin providerId none) skipped fun skipped =>
          ⟨target.category?, fromAccounts urls ctx target, skipped⟩).Alike
      (orSkip target ((target.category?.bind ctx.defaults).map fun providerId =>
        preferred urls (ctx.withAccounts ps cs) target .admin providerId none) skipped fun skipped =>
          ⟨target.category?, fromAccounts urls (ctx.withAccounts ps cs) target, skipped⟩) :=
    orSkip_alike (hpreferred (target.category?.bind ctx.defaults) .admin id fun _ => none) hlast
  have hrest := @orSkip_alike target _ _ _ _
    (hpreferred (target.category?.bind ctx.preferences) .user (·.providerId) (·.connectionId)) hadmin []
  have hgranted : ∀ r r' : TargetResolution, r.Alike r' →
      (((target.category?.bind ctx.grants).bind (fromGrant urls ctx target)).elim r fun outcome =>
        (⟨target.category?, outcome, []⟩ : TargetResolution)).Alike
      (((target.category?.bind ctx.grants).bind (fromGrant urls (ctx.withAccounts ps cs) target)).elim r'
        fun outcome => ⟨target.category?, outcome, []⟩) := by
    intro r r' hr
    cases target.category?.bind ctx.grants with
    | none => exact hr
    | some grantedId =>
      rcases fromGrant_alike hctx hps hcs grantedId with ⟨hnone, hnone'⟩ | ⟨outcome, outcome', hsome, hsome', halike⟩
      · rw [Option.bind_some, Option.bind_some, hnone, hnone']
        exact hr
      · rw [Option.bind_some, Option.bind_some, hsome, hsome']
        exact ⟨rfl, halike, rfl⟩
  have hchosen : ∀ r r' : TargetResolution, r.Alike r' →
      ((target.category?.bind fun category => (ctx.choices category).map (fromChoice urls ctx target category)).elim r
        fun outcome => (⟨target.category?, outcome, []⟩ : TargetResolution)).Alike
      ((target.category?.bind fun category =>
          (ctx.choices category).map (fromChoice urls (ctx.withAccounts ps cs) target category)).elim r'
        fun outcome => ⟨target.category?, outcome, []⟩) := by
    intro r r' hr
    cases target.category? with
    | none => exact hr
    | some category =>
      rw [Option.bind_some, Option.bind_some]
      cases ctx.choices category with
      | none => exact hr
      | some choice => exact ⟨rfl, fromChoice_alike hctx hps hcs category choice, rfl⟩
  rw [resolveTiers_eq, resolveTiers_eq]
  exact hchosen _ _ (hgranted _ _ hrest)

theorem resolveTarget_withAccounts :
    (resolveTarget urls ctx target).Alike (resolveTarget urls (ctx.withAccounts ps cs) target) := by
  cases target with
  | category category => exact resolveTiers_alike hctx hps hcs
  | provider pinned =>
    have hproviders : targetProviders (ctx.withAccounts ps cs) (.provider pinned) = [] ↔
        targetProviders ctx (.provider pinned) = [] := (Lib.perm_nil_iff (targetProviders_perm hps)).symm
    rw [resolveTarget, resolveTarget, stateOf_perm hctx hps]
    split
    · exact ⟨rfl, .unresolved _ _ _ (List.Perm.refl _), rfl⟩
    · simp only [hproviders]
      split
      · exact ⟨rfl, .unresolved _ _ _ (List.Perm.refl _), rfl⟩
      · exact resolveTiers_alike hctx hps hcs

end Order

/-- What a task is handed is its owner's own and permitted, and the accounts of others and the order of the
context change nothing. -/
theorem resolveTarget_permitted (urls : Urls) (ctx : ResolverContext) (target : ResolverTarget) (hctx : Distinct ctx) :
    (resolveTarget urls ctx target).outcome.Sound urls ctx target ∧
      ∀ ctx', SameForOwner ctx ctx' → (resolveTarget urls ctx target).Alike (resolveTarget urls ctx' target) := by
  refine ⟨resolveTarget_sound hctx, fun ctx' h => ?_⟩
  rw [h.rest]
  exact resolveTarget_withAccounts hctx h.providers h.connections

def asciiUrls : Urls where
  parse _ := none
  toLowerCase text := text.map fun u => if 0x41 ≤ u && u ≤ 0x5a then u + 32 else u

/-- Two people with an account at the same forge, and a repository that is restricted to both. -/
def twoPeople : ResolverContext where
  ownerUserId := units "ann"
  repository := some ⟨some (units "git@github.com:ann/tools.git"), true, fun _ => true⟩
  providers := [⟨units "github", [units "forge"], .inr true⟩]
  categoryStates _ := none
  connections :=
    [⟨units "c2", units "github", .user, units "ben", .connected, some ⟨none, units "github.com"⟩⟩,
      ⟨units "c1", units "github", .user, units "ann", .connected, some ⟨none, units "github.com"⟩⟩]
  choices _ := none
  grants _ := none
  preferences _ := some ⟨units "github", some (units "c2")⟩
  defaults _ := none

theorem resolveTarget_permitted_twoPeople :
    (resolveTarget asciiUrls twoPeople (.category (units "forge"))).outcome =
        .resolved (units "github") (units "c1") .user ∧
      (resolveTarget asciiUrls twoPeople (.category (units "forge"))).outcome.Sound asciiUrls twoPeople
        (.category (units "forge")) :=
  ⟨rfl, (resolveTarget_permitted asciiUrls twoPeople _ ⟨by decide, by decide⟩).1⟩

end Haive.Integrations
