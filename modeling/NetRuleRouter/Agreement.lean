import NetRuleRouter.OwnerTiers
import NetRuleRouter.TierRanks

/-!
# The arbiter and the decision engine

At a host that alone holds its address the arbiter's route claims are the
engine's, up to the zones a set hides behind its own suffix rule, so the two
agree on the owner. A Block zone that is hidden makes no claim in the engine
but still counts for the arbiter: this is where they part on Blocks.
-/

set_option autoImplicit false

namespace NetRuleRouter.Agreement
open TextOps IpNetwork HostMatching
open Canonical FqdnCache LongestPrefix
open HostClaims OwnerTiers
open RuleMatching TierRanks
open Arbiter hiding labelCount zoneClaim

def Supported (support : RuleShapeSupport) (b : CanonicalRuleBook) : Prop :=
  ∀ role, ∀ r ∈ (b.setFor role).rules, r.enabled = true →
    (ruleVerdict r support).isSupported = true

def NamesLiteral (s : CanonicalRuleSet) (addr : IpAddr) : Prop :=
  ∃ r ∈ s.rules, r.enabled = true ∧ r.addressMatch = some (.exactIp addr)

theorem literal_named {s : CanonicalRuleSet} {addr : IpAddr} (hmem : addr ∈ literals s) :
    NamesLiteral s addr := by
  obtain ⟨r, hroute, hlit⟩ := List.mem_filterMap.mp hmem
  obtain ⟨hr, he, -⟩ := mem_route_rules.mp hroute
  refine ⟨r, hr, he, ?_⟩
  unfold literalOf at hlit
  split at hlit
  · rename_i a ha
    cases hlit
    exact ha
  · simp at hlit

variable {name : Text} {rank : ClaimRank}

theorem label_count_eq (hne : name ≠ []) (hl : hasEmptyLabel name = false) :
    Arbiter.labelCount name = labelCount name := by
  rw [hasEmptyLabel, List.any_eq_false] at hl
  rw [Arbiter.labelCount, labelCount, if_neg hne, List.filter_eq_self.mpr]
  intro l hmem
  simpa using hl l hmem

section
variable {b : CanonicalRuleBook} {cache : FqdnCacheSnapshot} {h : Text} {ip : IpAddr}
variable {order : ZoneVsIpOrder} {support : RuleShapeSupport} {role : RouteRole}
variable (iso : Isolated b cache h ip)
include iso

theorem suffix_labels
    (hm : matchSuffixDomain h name = true) : Arbiter.labelCount name = labelCount name :=
  label_count_eq (match_suffix_iff.mp hm).1 (suffix_no_empty_label iso.labels hm)

theorem zone_labels (hm : matchZone h name = true) : Arbiter.labelCount name = labelCount name :=
  suffix_labels iso (match_zone_suffix hm)

omit iso

theorem route_claim_of_contends (iso : Isolated b cache h ip) (hna : NoApps b)
    (hsup : Supported support b) {action : RuleAction}
    (hact : action ≠ .block) (hc : Contends b h ip order role action rank) :
    RouteClaim b support h ip order role rank := by
  obtain ⟨r, hr, he, rfl, hrank⟩ := hc
  have happ := hna role r hr he
  have hroute : r ∈ routeRules (b.setFor role) := mem_route_rules.mpr ⟨hr, he, happ, hact⟩
  cases hrank with
  | exactFqdn ha =>
    exact .name .exactFqdn ⟨r, hroute, by simp [namesHost, ha], by simp [nameClaimOf, ha]⟩
  | suffix label ha hm =>
    rw [← suffix_labels iso hm]
    exact .name _ ⟨r, hroute, by simpa [namesHost, ha] using hm, by simp [nameClaimOf, ha]⟩
  | siteZone name ha hs hm hh =>
    rw [← zone_labels iso hm]
    exact .name _ ⟨r, hroute, by simpa [namesHost, ha] using hm,
      by simp [nameClaimOf, ha, Arbiter.zoneClaim, hs, hh]⟩
  | zone name ha hs hm =>
    rw [← zone_labels iso hm]
    exact .name _ ⟨r, hroute, by simpa [namesHost, ha] using hm,
      by simp [nameClaimOf, ha, Arbiter.zoneClaim, hs]⟩
  | literal ha => exact .literal (List.mem_filterMap.mpr ⟨r, hroute, by simp [literalOf, ha]⟩)
  | network net hmem hholds =>
    refine .network _ ⟨net, List.mem_flatMap.mpr ⟨r, hroute, ?_⟩, hholds, rfl⟩
    rw [networksOf, if_pos (hsup role r hr he)]
    exact hmem

theorem contends_of_route_claim (iso : Isolated b cache h ip)
    (hc : RouteClaim b support h ip order role rank) :
    ∃ action, Contends b h ip order role action rank := by
  have hrule {r : CanonicalRule} (hr : r ∈ (b.setFor role).rules) (he : r.enabled = true)
      {rank : ClaimRank} (hrank : RuleRank b h ip order role r rank) :
      ∃ action, Contends b h ip order role action rank :=
    ⟨r.action, r, hr, he, rfl, hrank⟩
  cases hc with
  | literal hmem =>
    obtain ⟨r, hr, he, ha⟩ := literal_named hmem
    exact hrule hr he (.literal ha)
  | network len hlen =>
    obtain ⟨net, hnet, hc, rfl⟩ := hlen
    obtain ⟨r, hroute, hmem⟩ := List.mem_flatMap.mp hnet
    obtain ⟨hr, he, -⟩ := mem_route_rules.mp hroute
    rw [networksOf] at hmem
    split at hmem
    · exact hrule hr he (.network net hmem hc)
    · simp at hmem
  | name c hname =>
    obtain ⟨r, hroute, hnames, rfl⟩ := hname
    obtain ⟨hr, he, -⟩ := mem_route_rules.mp hroute
    unfold namesHost at hnames
    unfold nameClaimOf
    rcases ha : r.addressMatch with _ | (host | suffix | base | zone | addr | block | range)
    · simp [ha] at hnames
    · simp only [ha, beq_iff_eq] at hnames
      exact hrule hr he (.exactFqdn (hnames ▸ ha))
    · simp only [ha] at hnames
      dsimp only
      rw [suffix_labels iso hnames]
      exact hrule hr he (.suffix suffix ha hnames)
    · simp [ha] at hnames
    · simp only [ha] at hnames
      dsimp only [Arbiter.zoneClaim]
      rw [zone_labels iso hnames]
      cases hs : zoneRanksAsSuffix zone with
      | false => exact hrule hr he (.zone zone ha hs hnames)
      | true =>
        cases hh : (b.setFor role).holdsSuffix zone r.appMatch with
        | false => exact hrule hr he (.siteZone zone ha hs hnames hh)
        | true =>
          obtain ⟨r', hr', he', -, ha'⟩ := holds_suffix_iff.mp hh
          exact hrule hr' he' (.suffix zone ha' (match_zone_suffix hnames))
    · simp [ha] at hnames
    · simp [ha] at hnames
    · simp [ha] at hnames

/-- Every enabled rule routes an address, for every application. -/
def RouteBook (b : CanonicalRuleBook) : Prop :=
  ∀ role, ∀ r ∈ (b.setFor role).rules, r.enabled = true →
    r.action = .route ∧ r.appMatch = none ∧ r.addressMatch.isSome = true ∧
      ∀ base, r.addressMatch ≠ some (.anyZoneDomain base)

def linkOf : RouteRole → Link
  | .primary => .main
  | .secondary => .additional

theorem matched_role (d : RequestedRouteDecision) :
    d.matchedRouteRole = d.outcome.map Prod.fst := by
  cases d with
  | matchedRoute c | defaultRoute mode reason => rfl

/-- The arbiter gives an address to the link of the rule the engine picks, and to none where the
default decides. -/
theorem owner_agrees_with_engine (hbook : RouteBook b)
    (hdisj : ∀ addr, ¬(NamesLiteral b.primary addr ∧ NamesLiteral b.secondary addr))
    (hsup : Supported support b) (iso : Isolated b cache h ip) (order : ZoneVsIpOrder)
    (mode : RouteBehaviorMode) :
    (resolveWithSupport b cache order support).ownerOf ip =
      (matchRules (connection (some h) (some ip)) ⟨none⟩ b
        (policyOf order) mode).matchedRouteRole.map linkOf := by
  have hna : NoApps b := fun role r hr he => (hbook role r hr he).2.1
  have hany : NoAnyZone b := fun role r hr he => (hbook role r hr he).2.2.2
  have hlits : ¬(ip ∈ literals b.primary ∧ ip ∈ literals b.secondary) := fun hboth =>
    hdisj ip ⟨literal_named hboth.1, literal_named hboth.2⟩
  have hroutes {role : RouteRole} {action : RuleAction} {rank : ClaimRank}
      (hc : Contends b h ip order role action rank) : action = .route := by
    obtain ⟨r, hr, he, rfl, -⟩ := hc
    exact (hbook role r hr he).1
  have hclaim {role : RouteRole} {action : RuleAction} {rank : ClaimRank}
      (hc : Contends b h ip order role action rank) : RouteClaim b support h ip order role rank :=
    route_claim_of_contends iso hna hsup (by simp [hroutes hc]) hc
  have hlit : ¬LiteralBlock b ip := by
    intro hblock
    obtain ⟨role, r, hr, he, hact, -⟩ := hblock
    simp [(hbook role r hr he).1] at hact
  rw [matched_role]
  cases hout : (matchRules (connection (some h) (some ip)) ⟨none⟩ b (policyOf order)
      mode).outcome with
  | none =>
    cases ho : (resolveWithSupport b cache order support).ownerOf ip with
    | none => rfl
    | some link =>
      obtain ⟨rank, hlead⟩ := owner_leads hlits iso ho
      obtain ⟨action, hc⟩ := contends_of_route_claim iso hlead.1
      exact (engine_default hna mode hout _ _ _ hc).elim
  | some o =>
    obtain ⟨rank, hc, hmost⟩ := engine_leader hna hany hlit mode hout
    have hlead : Leading (RouteClaim b support h ip order) o.1 rank := by
      refine ⟨hclaim hc, fun role' rank' hrc => ?_⟩
      obtain ⟨action', hc'⟩ := contends_of_route_claim iso hrc
      rcases hmost _ _ _ hc' with hlt | ⟨heq, hprec⟩
      · exact Or.inl hlt
      · rw [hroutes hc, hroutes hc', Precedes] at hprec
        exact Or.inr ⟨heq, by omega⟩
    cases ho : (resolveWithSupport b cache order support).ownerOf ip with
    | none => exact (owner_none hlits iso ho _ _ hlead.1).elim
    | some link =>
      obtain ⟨rank', hlead'⟩ := owner_leads hlits iso ho
      have hrole := leading_unique hlead hlead'
      rw [Option.map_some, Option.map_some, hrole]
      cases link <;> rfl

end

def sampleAddress : IpAddr := .v4 0x5db8d822

def sampleCache : FqdnCacheSnapshot where
  byHostname := [("www.example.com".toList, [sampleAddress])]
  hostnamesByRecency := ["www.example.com".toList]
  listed := by simp

theorem sample_isolated {b : CanonicalRuleBook}
    (hrules : ∀ role, ∀ r ∈ (b.setFor role).rules, r.addressMatch = some (.zone "com".toList) ∨
      r.addressMatch = some (.suffixDomain "example.com".toList)) :
    Isolated b sampleCache "www.example.com".toList sampleAddress := by
  have hnames (role : RouteRole) (r : CanonicalRule) (hr : r ∈ (b.setFor role).rules) (name : Text)
      (ha : r.addressMatch = some (.suffixDomain name) ∨ r.addressMatch = some (.zone name)) :
      name = "com".toList ∨ name = "example.com".toList := by
    rcases hrules role r hr with hz | hs
    · rw [hz] at ha
      simpa [eq_comm] using Or.inl ha
    · rw [hs] at ha
      simpa [eq_comm] using Or.inr ha
  constructor
  · decide +kernel
  · decide +kernel
  · decide +kernel
  · intro role r hr _ host hhost _
    rcases hrules role r hr with hz | hs
    · rw [hostsNamed, hz] at hhost
      exact List.mem_singleton.mp hhost
    · rw [hostsNamed, hs] at hhost
      exact List.mem_singleton.mp hhost
  · intro role r hr _ name ha
    rw [CanonicalName]
    rcases hnames role r hr name ha with rfl | rfl
    · decide +kernel
    · decide +kernel
  · intro role r hr _ name ha
    rcases hnames role r hr name ha with rfl | rfl
    · decide +kernel
    · decide +kernel
  · decide +kernel
  · decide +kernel

def siteOverZone (zoneAction siteAction : RuleAction) : CanonicalRuleBook :=
  bookOf [addressRule "R-0001" true (.zone "com".toList) zoneAction]
    [addressRule "R-0002" true (.suffixDomain "example.com".toList) siteAction]

theorem site_over_zone_rules {zoneAction siteAction : RuleAction} {role : RouteRole}
    {r : CanonicalRule} (hr : r ∈ ((siteOverZone zoneAction siteAction).setFor role).rules) :
    r = addressRule "R-0001" true (.zone "com".toList) zoneAction ∨
      r = addressRule "R-0002" true (.suffixDomain "example.com".toList) siteAction := by
  cases role with
  | primary => exact Or.inl (List.mem_singleton.mp hr)
  | secondary => exact Or.inr (List.mem_singleton.mp hr)

theorem site_over_zone_isolated (zoneAction siteAction : RuleAction) :
    Isolated (siteOverZone zoneAction siteAction) sampleCache "www.example.com".toList
      sampleAddress := by
  apply sample_isolated
  intro role r hr
  rcases site_over_zone_rules hr with rfl | rfl
  · exact Or.inl rfl
  · exact Or.inr rfl

theorem owner_agrees_at_site :
    (resolveWithSupport (siteOverZone .route .route) sampleCache .zoneFirst
        ⟨true, true, true⟩).ownerOf sampleAddress =
      (matchRules (connection (some "www.example.com".toList) (some sampleAddress)) ⟨none⟩
        (siteOverZone .route .route) (policyOf .zoneFirst)
        .preferPrimary).matchedRouteRole.map linkOf := by
  refine owner_agrees_with_engine ?_ ?_ ?_ (site_over_zone_isolated _ _) .zoneFirst .preferPrimary
  · intro role r hr _
    rcases site_over_zone_rules hr with rfl | rfl
    · simp [addressRule]
    · simp [addressRule]
  · intro addr hboth
    obtain ⟨r, hr, -, ha⟩ := hboth.1
    rcases @site_over_zone_rules _ _ .primary r hr with rfl | rfl
    · simp [addressRule] at ha
    · simp [addressRule] at ha
  · intro role r hr _
    rcases site_over_zone_rules hr with rfl | rfl
    · rfl
    · rfl

end NetRuleRouter.Agreement
