import NetRuleRouter.Agreement

/-!
# Blocks of the engine and Blocks of the arbiter

The engine blocks by a literal or by a Block claim that no route claim
outranks. The arbiter blocks by the same claims, and also by a zone of
several labels that the engine hides behind the suffix rule of its own set.
-/

set_option autoImplicit false

namespace NetRuleRouter.BlockAgreement
open TextOps IpNetwork HostMatching
open Canonical FqdnCache
open HostClaims OwnerTiers RuleMatching
open TierRanks Agreement
open Arbiter hiding labelCount zoneClaim

def covers (h : Text) (ip : IpAddr) (r : CanonicalRule) : Bool :=
  namesHost h r ||
    ((r.addressMatch.bind CanonicalAddressMatch.ipBlocks).getD []).any fun net => net.contains ip

/-- What enforcement blocks: a literal Block, or a Block over the connection that does not
yield. -/
def EnforcesBlock (b : CanonicalRuleBook) (o : AddressOwnership) (h : Text) (ip : IpAddr) : Prop :=
  LiteralBlock b ip ∨
    ∃ role, ∃ r ∈ (b.setFor role).rules, r.enabled = true ∧ r.action = .block ∧
      covers h ip r = true ∧ ∃ m, r.addressMatch = some m ∧ o.blockYields ip m = false

/-- A Block zone over the host beside the suffix rule of its name in its own set. -/
structure HiddenBlock (b : CanonicalRuleBook) (h : Text) (role : RouteRole) (r : CanonicalRule)
    (name : Text) : Prop where
  held : r ∈ (b.setFor role).rules
  enabled : r.enabled = true
  blocks : r.action = .block
  address : r.addressMatch = some (.zone name)
  several : zoneRanksAsSuffix name = true
  covering : matchZone h name = true
  beside : (b.setFor role).holdsSuffix name r.appMatch = true

variable {rank : ClaimRank} {role : RouteRole} {m : CanonicalAddressMatch} {r : CanonicalRule}

section
variable {b : CanonicalRuleBook} {cache : FqdnCacheSnapshot} {h : Text} {ip : IpAddr}
variable {order : ZoneVsIpOrder} {support : RuleShapeSupport}

def BlockRanks (b : CanonicalRuleBook) (h : Text) (ip : IpAddr) (order : ZoneVsIpOrder)
    (rank : ClaimRank) : Prop :=
  ∃ role, ∃ r ∈ (b.setFor role).rules, r.enabled = true ∧ r.action = .block ∧
    RuleRank b h ip order role r rank

def RouteRanks (b : CanonicalRuleBook) (h : Text) (ip : IpAddr) (order : ZoneVsIpOrder)
    (rank : ClaimRank) : Prop :=
  ∃ role, ∃ r ∈ (b.setFor role).rules, r.enabled = true ∧ r.action ≠ .block ∧
    RuleRank b h ip order role r rank

def Unbeaten (b : CanonicalRuleBook) (support : RuleShapeSupport) (h : Text) (ip : IpAddr)
    (order : ZoneVsIpOrder) (rank : ClaimRank) : Prop :=
  ∀ role rank', RouteClaim b support h ip order role rank' → rank' ≤ rank

theorem route_ranks_iff :
    RouteRanks b h ip order rank ↔
      ∃ role action, action ≠ .block ∧ Contends b h ip order role action rank := by
  constructor
  · intro hr
    obtain ⟨role, r, hr, he, hact, hrank⟩ := hr
    exact ⟨role, r.action, hact, r, hr, he, rfl, hrank⟩
  · intro hr
    obtain ⟨role, action, hact, r, hr, he, rfl, hrank⟩ := hr
    exact ⟨role, r, hr, he, hact, hrank⟩

theorem engine_blocks_unbeaten (iso : Isolated b cache h ip) (hna : NoApps b) (hany : NoAnyZone b)
    (support : RuleShapeSupport) (mode : RouteBehaviorMode)
    (hout : (matchRules (connection (some h) (some ip)) ⟨none⟩ b (policyOf order) mode).outcome =
      some (role, .block)) :
    LiteralBlock b ip ∨ ∃ rank, BlockRanks b h ip order rank ∧
      Unbeaten b support h ip order rank := by
  by_cases hlit : LiteralBlock b ip
  · exact Or.inl hlit
  · obtain ⟨rank, hc, hmost⟩ := engine_leader hna hany hlit mode hout
    refine Or.inr ⟨rank, ⟨role, hc⟩, fun role' rank' hclaim => ?_⟩
    obtain ⟨action, hc'⟩ := contends_of_route_claim iso hclaim
    rcases hmost role' action rank' hc' with hlt | ⟨heq, -⟩
    · exact hlt.le
    · exact heq.le

theorem engine_blocks (hna : NoApps b) (hany : NoAnyZone b) (mode : RouteBehaviorMode)
    (hblock : LiteralBlock b ip ∨ ∃ rank, BlockRanks b h ip order rank ∧
      ∀ rank', RouteRanks b h ip order rank' → rank' ≤ rank) :
    ∃ role, (matchRules (connection (some h) (some ip)) ⟨none⟩ b (policyOf order) mode).outcome =
      some (role, .block) := by
  by_cases hlit : LiteralBlock b ip
  · exact engine_literal_block hna hlit mode
  · obtain ⟨rank, hranks, hmost⟩ := hblock.resolve_left hlit
    obtain ⟨role, hc⟩ := hranks
    cases hout : (matchRules (connection (some h) (some ip)) ⟨none⟩ b (policyOf order)
        mode).outcome with
    | none => exact (engine_default hna mode hout role .block rank hc).elim
    | some o =>
      obtain ⟨role', action⟩ := o
      by_cases hact : action = .block
      · exact ⟨role', by rw [hact]⟩
      · -- a route that leads would outrank the Block
        obtain ⟨lead, hlead, hall⟩ := engine_leader hna hany hlit mode hout
        have hle := hmost lead (route_ranks_iff.mpr ⟨role', action, hact, hlead⟩)
        rcases hall role .block rank hc with hlt | ⟨-, hprec⟩
        · exact (not_le.mpr hlt hle).elim
        · cases action <;> simp [Precedes, actionRank] at hprec hact

theorem block_rank_network (m : CanonicalAddressMatch) (hm : m.ipBlocks.isSome = true) :
    blockRank m ip order = (m.ipBlocks.bind (List.find? fun net => net.contains ip)).map
      fun net => subnetRank net.prefixLen order := by
  cases m with
  | subnet block | ipRange range => rfl
  | exactFqdn host | suffixDomain suffix | zone zone | anyZoneDomain base | exactIp addr =>
    simp [CanonicalAddressMatch.ipBlocks] at hm

variable (iso : Isolated b cache h ip)
include iso

theorem visible_block_rank (hm : r.addressMatch = some m) (hlit : m ≠ .exactIp ip)
    (hrank : RuleRank b h ip order role r rank) :
    covers h ip r = true ∧ blockRank m ip order = some rank := by
  have hcovers (hn : namesHost h r = true) : covers h ip r = true := by simp [covers, hn]
  cases hrank with
  | exactFqdn ha =>
    obtain rfl := Option.some.inj (hm.symm.trans ha)
    exact ⟨hcovers (by simp [namesHost, ha]), rfl⟩
  | suffix label ha hs =>
    obtain rfl := Option.some.inj (hm.symm.trans ha)
    exact ⟨hcovers (by simpa [namesHost, ha] using hs),
      by rw [blockRank, suffix_labels iso hs]⟩
  | siteZone name ha hs hz hh | zone name ha hs hz =>
    obtain rfl := Option.some.inj (hm.symm.trans ha)
    exact ⟨hcovers (by simpa [namesHost, ha] using hz),
      by simp [blockRank, Arbiter.zoneClaim, hs, zone_labels iso hz]⟩
  | literal ha => exact (hlit (Option.some.inj (hm.symm.trans ha))).elim
  | network net hmem hc =>
    have hholds := holding_block_iff.mpr ⟨hmem, hc⟩
    refine ⟨?_, ?_⟩
    · rw [covers, Bool.or_eq_true, List.any_eq_true]
      exact Or.inr ⟨net, hmem, hc⟩
    · rw [hm, Option.bind_some] at hholds
      have hsome : m.ipBlocks.isSome = true := by
        cases hb : m.ipBlocks with
        | none => simp [hb] at hholds
        | some blocks => rfl
      rw [block_rank_network m hsome, hholds]
      rfl

theorem covering_block_rank
    (hr : r ∈ (b.setFor role).rules) (he : r.enabled = true) (hact : r.action = .block)
    (hcov : covers h ip r = true) (hm : r.addressMatch = some m) :
    ∃ rank, blockRank m ip order = some rank ∧
      (RuleRank b h ip order role r rank ∨ ∃ name, HiddenBlock b h role r name ∧
        hostRank (.siteZone (labelCount name)) order = rank) := by
  rw [covers, Bool.or_eq_true, namesHost, List.any_eq_true] at hcov
  have visible (rank : ClaimRank) (hlit : m ≠ .exactIp ip)
      (hrank : RuleRank b h ip order role r rank) :
      ∃ rank, blockRank m ip order = some rank ∧
        (RuleRank b h ip order role r rank ∨ ∃ name, HiddenBlock b h role r name ∧
          hostRank (.siteZone (labelCount name)) order = rank) :=
    ⟨rank, (visible_block_rank iso hm hlit hrank).2, Or.inl hrank⟩
  rcases hcov with hname | ⟨net, hmem, hc⟩
  · cases m with
    | exactFqdn host =>
      simp only [hm, beq_iff_eq] at hname
      exact visible _ (by simp) (.exactFqdn (hname ▸ hm))
    | suffixDomain suffix =>
      simp only [hm] at hname
      exact visible _ (by simp) (.suffix suffix hm hname)
    | zone zone =>
      simp only [hm] at hname
      cases hs : zoneRanksAsSuffix zone with
      | false => exact visible _ (by simp) (.zone zone hm hs hname)
      | true =>
        cases hh : (b.setFor role).holdsSuffix zone r.appMatch with
        | false => exact visible _ (by simp) (.siteZone zone hm hs hname hh)
        | true =>
          refine ⟨_, ?_, Or.inr ⟨zone, ⟨hr, he, hact, hm, hs, hname, hh⟩, rfl⟩⟩
          simp [blockRank, Arbiter.zoneClaim, hs, zone_labels iso hname]
    | anyZoneDomain base | exactIp addr | subnet block | ipRange range => simp [hm] at hname
  · refine visible _ ?_ (.network net hmem hc)
    rintro rfl
    simp [hm, CanonicalAddressMatch.ipBlocks] at hmem

theorem block_yields_iff (hrank : blockRank m ip order = some rank) :
    (resolveWithSupport b cache order support).blockYields ip m = false ↔
      Unbeaten b support h ip order rank := by
  have horder : (resolveWithSupport b cache order support).order = order := rfl
  rw [AddressOwnership.blockYields, horder, hrank, Option.any_some, ← Bool.not_eq_true,
    outranked_iff support iso]
  constructor
  · intro hnot role rank' hclaim
    exact not_lt.mp fun hlt => hnot ⟨role, rank', hclaim, hlt⟩
  · intro hall hex
    obtain ⟨role, rank', hclaim, hlt⟩ := hex
    exact not_le.mpr hlt (hall role rank' hclaim)

theorem enforces_block_iff :
    EnforcesBlock b (resolveWithSupport b cache order support) h ip ↔
      LiteralBlock b ip ∨
      (∃ rank, BlockRanks b h ip order rank ∧ Unbeaten b support h ip order rank) ∨
      ∃ role r name, HiddenBlock b h role r name ∧
        Unbeaten b support h ip order (hostRank (.siteZone (labelCount name)) order) := by
  constructor
  · intro henf
    rcases henf with hlit | ⟨role, r, hr, he, hact, hcov, m, hm, hyields⟩
    · exact Or.inl hlit
    · obtain ⟨rank, hrank, hclaim⟩ := covering_block_rank iso hr he hact hcov hm
      have hunbeaten := (block_yields_iff iso hrank).mp hyields
      rcases hclaim with hvisible | ⟨name, hhidden, rfl⟩
      · exact Or.inr (Or.inl ⟨rank, ⟨role, r, hr, he, hact, hvisible⟩, hunbeaten⟩)
      · exact Or.inr (Or.inr ⟨role, r, name, hhidden, hunbeaten⟩)
  · intro hclaim
    rcases hclaim with hlit | ⟨rank, ⟨role, r, hr, he, hact, hrank⟩, hunbeaten⟩ |
      ⟨role, r, name, hhidden, hunbeaten⟩
    · exact Or.inl hlit
    · by_cases hliteral : r.addressMatch = some (.exactIp ip)
      · exact Or.inl ⟨role, r, hr, he, hact, hliteral⟩
      · cases hm : r.addressMatch with
        | none => cases hrank <;> simp_all
        | some m =>
          obtain ⟨hcov, hblock⟩ :=
            visible_block_rank iso hm (fun heq => hliteral (heq ▸ hm)) hrank
          exact Or.inr ⟨role, r, hr, he, hact, hcov, m, hm,
            (block_yields_iff iso hblock).mpr hunbeaten⟩
    · refine Or.inr ⟨role, r, hhidden.held, hhidden.enabled, hhidden.blocks, ?_, _,
        hhidden.address, (block_yields_iff iso ?_).mpr hunbeaten⟩
      · simp [covers, namesHost, hhidden.address, hhidden.covering]
      · simp [blockRank, Arbiter.zoneClaim, hhidden.several, zone_labels iso hhidden.covering]

omit iso

/-- Enforcement blocks what the engine blocks exactly where every hidden Block zone over the host
is outranked by a route claim, or a visible Block decides anyway. -/
theorem enforced_blocks_iff (hna : NoApps b) (hany : NoAnyZone b) (hsup : Supported support b)
    (iso : Isolated b cache h ip) (order : ZoneVsIpOrder) (mode : RouteBehaviorMode) :
    ((∃ role, (matchRules (connection (some h) (some ip)) ⟨none⟩ b (policyOf order) mode).outcome =
        some (role, .block)) ↔
      EnforcesBlock b (resolveWithSupport b cache order support) h ip) ↔
    ∀ role r name, HiddenBlock b h role r name →
      (∃ rank, RouteRanks b h ip order rank ∧
        hostRank (.siteZone (labelCount name)) order < rank) ∨
      LiteralBlock b ip ∨
      ∃ rank, BlockRanks b h ip order rank ∧
        ∀ rank', RouteRanks b h ip order rank' → rank' ≤ rank := by
  have hroute {rank : ClaimRank} (hr : RouteRanks b h ip order rank) :
      ∃ role, RouteClaim b support h ip order role rank := by
    obtain ⟨role, action, hact, hc⟩ := route_ranks_iff.mp hr
    exact ⟨role, route_claim_of_contends iso hna hsup hact hc⟩
  have hvisible {rank : ClaimRank} (hu : Unbeaten b support h ip order rank) :
      ∀ rank', RouteRanks b h ip order rank' → rank' ≤ rank := by
    intro rank' hr
    obtain ⟨role, hclaim⟩ := hroute hr
    exact hu role rank' hclaim
  rw [enforces_block_iff iso]
  constructor
  · intro hagree role r name hhidden
    by_cases habove : ∃ rank, RouteRanks b h ip order rank ∧
        hostRank (.siteZone (labelCount name)) order < rank
    · exact Or.inl habove
    · refine Or.inr ?_
      by_cases hu : Unbeaten b support h ip order (hostRank (.siteZone (labelCount name)) order)
      · -- the arbiter blocks by the hidden zone, so the engine blocks by something visible
        obtain ⟨role', hout⟩ := hagree.mpr (Or.inr (Or.inr ⟨role, r, name, hhidden, hu⟩))
        refine (engine_blocks_unbeaten iso hna hany support mode hout).imp_right fun hblock => ?_
        obtain ⟨rank, hranks, hunbeaten⟩ := hblock
        exact ⟨rank, hranks, hvisible hunbeaten⟩
      · -- only a zone hidden behind a Block suffix rule still outranks it, and that rule is visible
        rw [Unbeaten] at hu
        push Not at hu
        obtain ⟨role', rank, hclaim, hlt⟩ := hu
        obtain ⟨action, hc⟩ := contends_of_route_claim iso hclaim
        by_cases hact : action = .block
        · subst hact
          refine Or.inr ⟨rank, ⟨role', hc⟩, fun rank' hr => ?_⟩
          exact le_of_lt (lt_of_le_of_lt (not_lt.mp fun h => habove ⟨rank', hr, h⟩) hlt)
        · exact (habove ⟨rank, route_ranks_iff.mpr ⟨role', action, hact, hc⟩, hlt⟩).elim
  · intro hcond
    constructor
    · intro hengine
      obtain ⟨role, hout⟩ := hengine
      exact (engine_blocks_unbeaten iso hna hany support mode hout).imp_right Or.inl
    · intro harb
      apply engine_blocks hna hany mode
      rcases harb with hlit | ⟨rank, hranks, hu⟩ | ⟨role, r, name, hhidden, hu⟩
      · exact Or.inl hlit
      · exact Or.inr ⟨rank, hranks, hvisible hu⟩
      · rcases hcond role r name hhidden with ⟨rank, hr, hlt⟩ | hblock
        · exact (not_le.mpr hlt (hvisible hu rank hr)).elim
        · exact hblock

end

theorem enforced_blocks_at_site :
    (∃ role, (matchRules (connection (some "www.example.com".toList) (some sampleAddress)) ⟨none⟩
        (siteOverZone .route .block) (policyOf .zoneFirst) .preferPrimary).outcome =
          some (role, .block)) ↔
      EnforcesBlock (siteOverZone .route .block)
        (resolveWithSupport (siteOverZone .route .block) sampleCache .zoneFirst
          ⟨true, true, true⟩) "www.example.com".toList sampleAddress := by
  refine (enforced_blocks_iff ?_ ?_ ?_ (site_over_zone_isolated _ _) .zoneFirst
    .preferPrimary).mpr ?_
  · intro role r hr _
    rcases site_over_zone_rules hr with rfl | rfl
    · rfl
    · rfl
  · intro role r hr _ base
    rcases site_over_zone_rules hr with rfl | rfl
    · simp [addressRule]
    · simp [addressRule]
  · intro role r hr _
    rcases site_over_zone_rules hr with rfl | rfl
    · rfl
    · rfl
  · intro role r name hhidden
    have hblocks := hhidden.blocks
    have haddress := hhidden.address
    rcases site_over_zone_rules hhidden.held with rfl | rfl
    · simp [addressRule] at hblocks
    · simp [addressRule] at haddress

/-- A routed site with its subdomains blocked by a zone of the same name. -/
def blockedBelowSite : CanonicalRuleBook :=
  bookOf [addressRule "R-0001" true (.suffixDomain "example.com".toList) .route,
    addressRule "R-0002" true (.zone "example.com".toList) .block] []

/-- The engine routes what enforcement drops. -/
theorem hidden_zone_still_blocks :
    (matchRules (connection (some "www.example.com".toList) (some sampleAddress)) ⟨none⟩
        blockedBelowSite (policyOf .zoneFirst) .preferPrimary).outcome =
          some (.primary, .route) ∧
      (resolveWithSupport blockedBelowSite sampleCache .zoneFirst ⟨true, true, true⟩).blockYields
        sampleAddress (.zone "example.com".toList) = false := by
  decide +kernel

end NetRuleRouter.BlockAgreement
