import NetRuleRouter.LoweredPlan

/-!
# A named address is not shadowed by the other link's networks

Host routes, carved host routes and network pieces come from three passes and
meet in one table. At an address a rule names, the link that owns it has a
route longer than every network piece of the other link, so the longest route
there leaves through the owner's interface.
-/

set_option autoImplicit false

namespace NetRuleRouter.ShadowedAddresses
open IpNetwork Canonical StrongestTable FqdnCache LongestPrefix Arbiter OwnerTiers
open NamedAddresses BlockGeometry SteeringClaims NetworkRoutes RoutedNetworks RouteCodegen
open HostRoutes LoweredPlan
open RuleMatching (RouteBehaviorMode)

def routedLink (mode : RouteBehaviorMode) : Link := otherLink (carveLink mode)

def overlayHalves (mode : RouteBehaviorMode) (catchAlls : List (BitVec 32 × ℕ)) :
    List (BitVec 32 × ℕ) :=
  match mode with
  | .preferPrimary => counterOverlayFor catchAlls
  | .preferSecondaryWhenAvailable => [overlayLow, overlayHigh]

section
variable {mode : RouteBehaviorMode} {b : CanonicalRuleBook}
variable {primary secondary : SecondaryRouteTarget} {cache : FqdnCacheSnapshot}
variable {observations : AppObservationLookup} {settings : OwnershipSettings}
variable {catchAlls : List (BitVec 32 × ℕ)} {facts : NetworkRouteFacts}
variable {support : RuleShapeSupport} {ip : IpAddr} {link : Link} {r : RouteEntry}

theorem mem_mode_routes {o : SettledOwnership} :
    r ∈ (modeRoutes mode b (some primary) secondary cache observations [] o catchAlls).routes ↔
      r ∈ (generateSecondaryRoutes (b.setFor (roleOf (routedLink mode)))
          (linkTarget primary secondary (routedLink mode)) cache observations [] o
            (routedLink mode)).routes ∨
        ∃ half ∈ overlayHalves mode catchAlls,
          r = overlayRoute half (linkTarget primary secondary (carveLink mode)) := by
  cases mode with
  | preferPrimary =>
    simp only [modeRoutes, filtered_by_nothing, List.mem_append, List.mem_map]
    exact or_congr Iff.rfl (exists_congr fun half => and_congr_right fun _ => eq_comm)
  | preferSecondaryWhenAvailable =>
    simp only [modeRoutes, List.mem_append, List.mem_cons, List.not_mem_nil, or_false,
      overlayHalves, exists_eq_or_imp, exists_eq_left]
    rw [or_comm]
    exact Iff.rfl

section
variable (mode b primary secondary cache observations settings catchAlls facts support ip)

structure Clear : Prop where
  hop : ∀ link, (nextHopFor ip (linkTarget primary secondary link)).isSome = true
  attached : facts.localNetworks = []
  servers : facts.tunnelServers = []
  networkCap : WithinCap mode b
    (resolveFor b cache settings support observations).toAddressOwnership facts catchAlls support
  hostCap : SetBelowCap (b.setFor (roleOf (routedLink mode)))
    (linkTarget primary secondary (routedLink mode)) cache observations []
    (resolveFor b cache settings support observations) (routedLink mode)

def routesOf : List RouteEntry :=
  (generateRoutesWith mode b (some primary) secondary cache observations [] settings catchAlls
    facts support).routes

def networksOfPlan : List (Link × IpBlock) :=
  (planNetworkRoutes mode b true
    (resolveFor b cache settings support observations).toAddressOwnership facts catchAlls
    support).networks

/-- The owners, the plan and the table that the engine comes to. -/
structure Lowered (o : SettledOwnership) (plan : NetworkRoutePlan) (routes : List RouteEntry) :
    Prop where
  clear : Clear mode b primary secondary cache observations settings catchAlls facts support ip
  owners : o = resolveFor b cache settings support observations
  planned : plan = planNetworkRoutes mode b true o.toAddressOwnership facts catchAlls support
  table : routes =
    routesOf mode b primary secondary cache observations settings catchAlls facts support

end

def LongerAt (routes : List RouteEntry) (ip : IpAddr) (p : IpBlock) : Prop :=
  ∃ r ∈ routes, routeCovers r ip = true ∧ p.prefixLen < r.prefixLength

section
variable {o : SettledOwnership} {plan : NetworkRoutePlan} {routes : List RouteEntry}
  (hplan : Lowered mode b primary secondary cache observations settings catchAlls facts support ip
    o plan routes)
include hplan

theorem mem_routes_of :
    r ∈ routes ↔
      r ∈ (pushNetworkPlan plan (some primary) secondary (modeRoutes mode b (some primary)
        secondary cache observations [] o catchAlls)).routes ∧
        ¬(r.interfaceIndex = secondary.interfaceIndex ∧
          r.prefixLength = hostPrefixFor r.destination ∧
            keepsHostDirect facts b.secondary r.destination = true) := by
  obtain ⟨-, rfl, rfl, rfl⟩ := hplan
  simp only [routesOf, generateRoutesWith, Option.isSome_some, List.mem_filter, Bool.not_eq_true',
    Bool.and_eq_false_iff, beq_eq_false_iff_ne]
  refine and_congr_right fun _ => ?_
  rw [not_and_or, not_and_or, or_assoc, Bool.not_eq_true]

theorem foreign_route_planned (hown : o.ownerOf ip = some link) (hr : r ∈ routes)
    (hc : routeCovers r ip = true)
    (hover : ∀ half ∈ v4Blocks (overlayHalves mode catchAlls), half.contains ip = true →
      half.prefixLen < r.prefixLength)
    (hne : r.interfaceIndex ≠ (linkTarget primary secondary link).interfaceIndex) :
    ∃ p, (otherLink link, p) ∈ plan.networks ∧ p.contains ip = true ∧
      r.prefixLength = p.prefixLen := by
  have hlink (l : Link) (h : r.interfaceIndex = (linkTarget primary secondary l).interfaceIndex) :
      l = otherLink link :=
    eq_other_link fun heq => hne (heq ▸ h)
  rcases lowered_cases ((mem_routes_of hplan).mp hr).1 with
    hin | ⟨e, he, hop, rfl⟩ | ⟨e, he, hop, rfl⟩
  · rcases mem_mode_routes.mp hin with hhost | ⟨half, hhalf, rfl⟩
    · obtain ⟨hlen, hrif, hnot⟩ := generated_hosts hhost
      rw [(host_covers hlen).mp hc, NotOther, hlink _ hrif, hown] at hnot
      cases link <;> simp [otherLink] at hnot
    · -- an overlay is not longer than itself
      rw [routeCovers, Option.any_eq_true] at hc
      obtain ⟨block, hblock, hin⟩ := hc
      have hlt := hover block (List.mem_filterMap.mpr ⟨half, hhalf, hblock⟩) hin
      rw [(block_new_iff.mp hblock).2] at hlt
      exact absurd hlt (lt_irrefl _)
  · -- the plan carves the hosts of the link that owns them
    have hdest : e.2 = ip :=
      (@host_covers (hostRoute e.2 hop (linkTarget primary secondary e.1)) ip rfl).mp hc
    have hcarved : e.1 = carveLink mode ∧ o.ownerOf e.2 = some (carveLink mode) := by
      simp only [hplan.planned, planNetworkRoutes] at he
      split at he
      · simp at he
      · obtain ⟨a, ha, rfl⟩ := List.mem_map.mp he
        rw [mem_address_set, List.mem_flatMap] at ha
        obtain ⟨_, _, ha⟩ := ha
        simp only [List.mem_filter, Bool.and_eq_true, beq_iff_eq] at ha
        exact ⟨rfl, ha.2.1⟩
    rw [hdest, hown, Option.some.injEq] at hcarved
    exact absurd (by rw [hcarved.2, ← hcarved.1]; rfl) hne
  · refine ⟨e.2, ?_, ?_, rfl⟩
    · rw [← hlink e.1 rfl]
      exact he
    · rwa [network_covers rfl rfl] at hc

theorem planned_iff {p : IpBlock} :
    (link, p) ∈ plan.networks ↔
      Planned (bookNetworks b support .main) (bookNetworks b support .additional)
        (competitorsOf mode true facts catchAlls) link p := by
  obtain ⟨hclear, rfl, rfl, -⟩ := hplan
  exact plan_iff_planned rfl hclear.attached hclear.servers hclear.networkCap

variable (hkept : keepsHostDirect facts b.secondary ip = false)
include hkept

theorem host_in_table {i : ℕ}
    (h : HasHost (pushNetworkPlan plan (some primary) secondary (modeRoutes mode b (some primary)
      secondary cache observations [] o catchAlls)).routes ip i)
    {p : IpBlock} (hin : p.contains ip = true) (hs : p.isSingleAddress = false) :
    LongerAt routes ip p := by
  obtain ⟨r, hr, hd, hlen, -⟩ := h
  refine ⟨r, (mem_routes_of hplan).mpr ⟨hr, ?_⟩, (host_covers (hd ▸ hlen)).mpr hd, ?_⟩
  · rw [hd, hkept]
    simp
  · rw [hlen]
    by_contra hle
    rw [single_of_host hin (not_lt.mp hle)] at hs
    cases hs

theorem network_in_table {q : IpBlock} (hq : (link, q) ∈ plan.networks)
    (hin : q.contains ip = true) :
    ∃ r ∈ routes, routeCovers r ip = true ∧ r.prefixLength = q.prefixLen := by
  obtain ⟨r, hr, hd, hlen, -⟩ := @lowered_network q _ primary secondary
    (modeRoutes mode b (some primary) secondary cache observations [] o catchAlls) ip
    hplan.clear.hop link hq hin
  have hhost : routeCovers r ip = true := by rw [network_covers hd hlen, hin]
  refine ⟨r, (mem_routes_of hplan).mpr ⟨hr, ?_⟩, hhost, hlen⟩
  intro hdrop
  -- only a network of one address has the length of a host route, and that address is not kept
  rw [(host_covers hdrop.2.1).mp hhost, hkept] at hdrop
  exact absurd hdrop.2.2 (by simp)

variable (hnon : isNonRoutable ip = false) {p : IpBlock} (hin : p.contains ip = true)
  (hs : p.isSingleAddress = false)
include hnon hin hs

theorem carved_longer (hown : o.ownerOf ip = some (carveLink mode)) (hnamed : Named b cache ip)
    (hp : (otherLink (carveLink mode), p) ∈ plan.networks) : LongerAt routes ip p := by
  by_cases hholder : narrowestHolder plan.networks ip = some (carveLink mode)
  · obtain ⟨q, hq, hqin, hmost⟩ := narrowest_holder_some hholder
    obtain ⟨r, hr, hc, hlen⟩ := network_in_table hplan hkept hq hqin
    refine ⟨r, hr, hc, ?_⟩
    rw [hlen]
    refine lt_of_le_of_ne (hmost _ hp hin) fun heq => ?_
    obtain rfl := same_length_eq hin hqin heq
    have hother := (planned_iff hplan).mp hp
    have hcarve := (planned_iff hplan).mp hq
    cases hmode : carveLink mode with
    | main =>
      rw [hmode] at hother hcarve
      exact planned_once hcarve hother
    | additional =>
      rw [hmode] at hother hcarve
      exact planned_once hother hcarve
  · have hexplicit : ip ∈ explicitInside o.toAddressOwnership p := by
      rw [hplan.owners]
      exact mem_explicit_inside.mpr ⟨Or.inl (named_ranked hnamed), hin⟩
    have hcarved : (carveLink mode, ip) ∈ plan.hosts := by
      rw [hplan.planned] at hp hholder ⊢
      simp only [planNetworkRoutes, Bool.true_eq_false, and_false, if_false]
      refine List.mem_map.mpr ⟨ip, mem_address_set.mpr (List.mem_flatMap.mpr
        ⟨(otherLink (carveLink mode), p), List.mem_filter.mpr ⟨hp, ?_⟩,
          List.mem_filter.mpr ⟨hexplicit, ?_⟩⟩), rfl⟩
      · cases carveLink mode <;> rfl
      · rw [Bool.and_eq_true, beq_iff_eq, bne_iff_ne]
        exact ⟨hown, hholder⟩
    exact host_in_table hplan hkept (lowered_host hplan.clear.hop hcarved hnon) hin hs

theorem routed_longer (hout : o.keepsOutOfTunnel ip = false)
    (hown : o.ownerOf ip = some (routedLink mode))
    (htaken : ip.isIpv4 = false → valueAt o.appTaken ip = none)
    (hhost : routedLink mode = .main → ∀ host ∈ facts.tunnelRoutes,
      host.isSingleAddress = true → host.contains ip = true → host ∉ bookNetworks b support .main)
    (hp : (otherLink (routedLink mode), p) ∈ plan.networks) : LongerAt routes ip p := by
  have hreach : Reachable (linkTarget primary secondary (routedLink mode)) ip :=
    ⟨hnon, hplan.clear.hop _⟩
  have hgenerated (h : ∃ route ∈ (generateSecondaryRoutes (b.setFor (roleOf (routedLink mode)))
      (linkTarget primary secondary (routedLink mode)) cache observations [] o
        (routedLink mode)).routes, route.destination = ip) : LongerAt routes ip p := by
    obtain ⟨route, hroute, hd⟩ := h
    have hlen := (generated_hosts hroute).1
    exact host_in_table hplan hkept ⟨route, lowered_keeps _ (mem_mode_routes.mpr (Or.inl hroute)),
      hd, hd ▸ hlen, rfl⟩ hin hs
  have hcap := hplan.clear.hostCap
  rw [← hplan.owners] at hcap
  cases htake : valueAt o.appTaken ip with
  | some taker =>
    have htaker : taker = routedLink mode := by
      rw [AddressOwnership.ownerOf, htake, Option.some_or, Option.some.injEq] at hown
      exact hown
    subst htaker
    have hsettled := hplan.owners
    subst hsettled
    obtain ⟨hon, pattern, hpattern, hobs⟩ := taken_observed htake
    cases hfam : ip with
    | v6 bits =>
      rw [hfam] at htaken htake
      rw [htaken rfl] at htake
      cases htake
    | v4 bits =>
      subst hfam
      simp only [observedAddresses, List.mem_append, List.mem_map, IpAddr.v4.injEq,
        exists_eq_right, reduceCtorEq, and_false, exists_false, or_false] at hobs
      exact hgenerated (generated_programs hcap hpattern hobs hon hown hreach)
  | none =>
    have hsteer : o.addressRuleMaySteer ip (routedLink mode) = true := by
      cases hmode : routedLink mode <;>
        simp [SettledOwnership.addressRuleMaySteer, hown, hmode, hout]
    rw [hplan.owners] at hown htake
    rw [settled_owner htake] at hown
    rcases owner_names_or_wins hown with ⟨r, hr, hnames⟩ | hwin
    · exact hgenerated (generated_names hcap hr hnames hsteer hreach)
    · have hclaimed : ∃ net, (net ∈ bookNetworks b support .main ∨
          net ∈ bookNetworks b support .additional) ∧ net.contains ip = true := by
        obtain ⟨block, hblock, hpiece⟩ := (planned_iff hplan).mp hp
        exact ⟨block, side_claimed hblock,
          contains_of_covers (split_inside hpiece.split) hin⟩
      obtain ⟨winner, net, hwin', hw⟩ := winner_narrowest hclaimed
      obtain rfl : winner = routedLink mode :=
        Option.some.inj (hwin'.symm.trans hwin)
      obtain ⟨q, hq, hqin, hqlen⟩ := piece_at_narrowest hw (narrowest_splits hw hhost)
      have hwider := other_piece_wider hw ((planned_iff hplan).mp hp) hin
        (by cases routedLink mode <;> simp [otherLink])
      obtain ⟨r, hr, hc, hlen⟩ := network_in_table hplan hkept
        ((planned_iff hplan).mpr hq) hqin
      exact ⟨r, hr, hc, by omega⟩

end

end

/-- An address a rule names is not shadowed by the other link's networks: past the overlays, the
longest route at the address leaves through the interface of the link that owns it. Left out are
an address that is itself a network piece of the other link, an IPv6 address a program of the
routed link takes, and, where main networks are exceptions to the tunnel, an address with a route
of its own in the tunnel that is a main network too. -/
theorem named_address_not_shadowed (mode : RouteBehaviorMode) (b : CanonicalRuleBook)
    (primary secondary : SecondaryRouteTarget) (cache : FqdnCacheSnapshot)
    (observations : AppObservationLookup) (settings : OwnershipSettings)
    (catchAlls : List (BitVec 32 × ℕ)) (facts : NetworkRouteFacts) (support : RuleShapeSupport)
    (ip : IpAddr) (link : Link)
    (hclear : Clear mode b primary secondary cache observations settings catchAlls facts support ip)
    (hnon : isNonRoutable ip = false)
    (hown : (resolveFor b cache settings support observations).ownerOf ip = some link)
    (hnamed : Named b cache ip)
    (hout : (resolveFor b cache settings support observations).keepsOutOfTunnel ip = false)
    (hkept : keepsHostDirect facts b.secondary ip = false)
    (hsingle : ∀ p, (otherLink link, p) ∈
      networksOfPlan mode b cache observations settings catchAlls facts support →
        p.contains ip = true → p.isSingleAddress = false)
    (htaken : link = routedLink mode → ip.isIpv4 = false →
      valueAt (resolveFor b cache settings support observations).appTaken ip = none)
    (hhost : link = .main → routedLink mode = .main → ∀ host ∈ facts.tunnelRoutes,
      host.isSingleAddress = true → host.contains ip = true →
        host ∉ bookNetworks b support .main) :
    ∀ r, LongestRoute (routesOf mode b primary secondary cache observations settings catchAlls
        facts support) ip r →
      (∀ half ∈ v4Blocks (overlayHalves mode catchAlls), half.contains ip = true →
        half.prefixLen < r.prefixLength) →
      r.interfaceIndex = (linkTarget primary secondary link).interfaceIndex := by
  intro r hlong hover
  obtain ⟨hr, hc, hmost⟩ := hlong
  by_contra hne
  have hplan : Lowered mode b primary secondary cache observations settings catchAlls facts support
      ip _ _ _ := ⟨hclear, rfl, rfl, rfl⟩
  obtain ⟨p, hp, hin, hlen⟩ := foreign_route_planned hplan hown hr hc hover hne
  have hs := hsingle p hp hin
  have hlonger : LongerAt (routesOf mode b primary secondary cache observations settings catchAlls
      facts support) ip p := by
    by_cases hcarve : link = carveLink mode
    · subst hcarve
      exact carved_longer hplan hkept hnon hin hs hown hnamed hp
    · obtain rfl : link = routedLink mode := eq_other_link hcarve
      exact routed_longer hplan hkept hnon hin hs hout hown (htaken rfl) (fun h => hhost h h) hp
  obtain ⟨r', hr', hc', hlt⟩ := hlonger
  have hle := hmost r' hr' hc'
  omega

def mainAdapter : SecondaryRouteTarget := ⟨0xC0A80001, some 0xFE800000000000000000000000000001, 1⟩

def tunnelAdapter : SecondaryRouteTarget := ⟨0x0A080001, some 0, 2⟩

def noFacts : NetworkRouteFacts := ⟨[], [], [], [], []⟩

def innerAddress : CanonicalRuleBook :=
  bookOf [addressRule "R-1" true (.subnet tenNet) .route]
    [addressRule "R-2" true (.exactIp (.v4 0x0A000001)) .route]

theorem inner_address_not_shadowed :
    LongestRoute (routesOf .preferPrimary innerAddress mainAdapter tunnelAdapter noNames noPrograms
        addressesFirst [] noFacts everyShape) (.v4 0x0A000001)
        ⟨.v4 0x0A000001, 32, .v4 0x0A080001, 2, 5, true⟩ ∧
      ∀ r, LongestRoute (routesOf .preferPrimary innerAddress mainAdapter tunnelAdapter noNames
        noPrograms addressesFirst [] noFacts everyShape) (.v4 0x0A000001) r →
        r.interfaceIndex = 2 := by
  have hclear : Clear .preferPrimary innerAddress mainAdapter tunnelAdapter noNames noPrograms
      addressesFirst [] noFacts everyShape (.v4 0x0A000001) :=
    { hop := by intro link; cases link <;> rfl
      attached := rfl
      servers := rfl
      networkCap := by intro link; cases link <;> decide +kernel
      hostCap := by unfold SetBelowCap; decide +kernel }
  have hnamed : Named innerAddress noNames (.v4 0x0A000001) :=
    ⟨.secondary, addressRule "R-2" true (.exactIp (.v4 0x0A000001)) .route, by decide +kernel,
      Or.inl rfl⟩
  refine ⟨by unfold LongestRoute; decide +kernel, fun r hr => ?_⟩
  exact named_address_not_shadowed .preferPrimary innerAddress mainAdapter tunnelAdapter noNames
    noPrograms addressesFirst [] noFacts everyShape (.v4 0x0A000001) .additional hclear
    (by decide) (by decide +kernel) hnamed (by decide +kernel) (by decide +kernel)
    (by
      intro p hp hin
      have hall : ∀ e ∈ networksOfPlan .preferPrimary innerAddress noNames noPrograms
          addressesFirst [] noFacts everyShape, e.2.isSingleAddress = false := by decide +kernel
      exact hall _ hp)
    (by intro _ h; cases h) (by intro h; cases h) r hr
    (by
      have hnone : v4Blocks (overlayHalves .preferPrimary []) = [] := by decide +kernel
      simp [hnone])

def rangeOverAddress : CanonicalRuleBook :=
  bookOf [addressRule "R-1" true
      (.ipRange ⟨.v4 0x0A000001, .v4 0x0A000002, by decide, by decide⟩) .route]
    [addressRule "R-2" true (.exactIp (.v4 0x0A000001)) .route]

/-- A program on the additional link and a network and an address of the main one. -/
def programInNetwork : CanonicalRuleBook :=
  bookOf [addressRule "R-1" true (.subnet
        ⟨.v6 0x20010DB8000000000000000000000000, 32, by decide, by decide⟩) .route,
      addressRule "R-2" true (.exactIp (.v6 0x20010DB8000000000000000000000001)) .route]
    [⟨"R-3".toList, true, none, some ⟨.exact "app.exe".toList, false, false⟩, [], .route, none⟩]

def seenProgram : AppObservationLookup :=
  ⟨fun _ => [], fun _ => [0x20010DB8000000000000000000000001], fun _ _ => false⟩

/-- A range that has an address as a piece of its own ties with the host route of the other link,
and an IPv6 address a program takes has no host route against the other link's network. -/
theorem longest_routes_leave_by_the_other_link :
    ((resolveFor rangeOverAddress noNames addressesFirst everyShape noPrograms).ownerOf
        (.v4 0x0A000001) = some .additional ∧
      LongestRoute (routesOf .preferPrimary rangeOverAddress mainAdapter tunnelAdapter noNames
        noPrograms addressesFirst [] noFacts everyShape) (.v4 0x0A000001)
          ⟨.v4 0x0A000001, 32, .v4 0xC0A80001, 1, 4, true⟩) ∧
    ((resolveFor programInNetwork noNames ⟨.exactIpFirst, true⟩ everyShape seenProgram).ownerOf
        (.v6 0x20010DB8000000000000000000000001) = some .additional ∧
      LongestRoute (routesOf .preferPrimary programInNetwork mainAdapter tunnelAdapter noNames
        seenProgram ⟨.exactIpFirst, true⟩ [] noFacts everyShape)
          (.v6 0x20010DB8000000000000000000000001)
          ⟨.v6 0x20010DB8000000000000000000000000, 32,
            .v6 0xFE800000000000000000000000000001, 1, 4, true⟩) := by
  unfold LongestRoute
  decide +kernel

end NetRuleRouter.ShadowedAddresses
