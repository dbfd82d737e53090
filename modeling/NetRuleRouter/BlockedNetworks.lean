import NetRuleRouter.NetworkCoverage
import NetRuleRouter.BlockAgreement

/-!
# Network Blocks and the routes inside them

The filters of a network Block leave out the routes inside it, and the
arbiter says which routes a Block yields to. The carving drops a name or a
literal whose link does not own the address, the arbiter asks for the best
rank of any link. They agree exactly where a route the carving keeps stands
behind what the arbiter yields to.
-/

set_option autoImplicit false

namespace NetRuleRouter.BlockedNetworks
open IpNetwork Canonical
open HostMatching (zoneRanksAsSuffix)
open StrongestTable FqdnCache LongestPrefix Arbiter HostClaims OwnerTiers CarvedNetworks
open NamedAddresses NetworkCoverage

variable {c : NameClaim} {role : RouteRole}

section
variable {b : CanonicalRuleBook} {cache : FqdnCacheSnapshot} {order : ZoneVsIpOrder}
variable {support : RuleShapeSupport} {ip : IpAddr} {r : CanonicalRule} {link : Link}

theorem reads_first_mono {d : NameClaim} (hcd : c ≤ d) (hc : readsFirst order c = true) :
    readsFirst order d = true := by
  by_contra hd
  have hbelow := reads_last_below (Bool.eq_false_iff.mpr hd) 0
  have habove := (subnet_below_literal 0 order).trans (reads_first_above hc)
  exact absurd (habove.trans_le (host_rank_le hcd)) (lt_asymm hbelow)

theorem reads_first_iff (len : ℕ) :
    readsFirst order c = true ↔ subnetRank len order < hostRank c order := by
  constructor
  · intro hc
    exact (subnet_below_literal len order).trans (reads_first_above hc)
  · intro hlt
    by_contra hc
    exact lt_asymm hlt (reads_last_below (Bool.eq_false_iff.mpr hc) len)

/-- The link holds the address by a literal or by a host it carries closely. -/
def Holds (b : CanonicalRuleBook) (cache : FqdnCacheSnapshot) (order : ZoneVsIpOrder)
    (support : RuleShapeSupport) (ip : IpAddr) (link : Link) : Prop :=
  ip ∈ literals (b.setFor (roleOf link)) ∨
    ∃ host c, carriedBy b cache support host = some (link, c) ∧
      ip ∈ cappedForHost cache host .both ∧ readsFirst order c = true

/-- The rule names the address by a literal or by a host it names closely, so before any
network. -/
def NamedFirst (rules : CanonicalRuleSet) (cache : FqdnCacheSnapshot) (order : ZoneVsIpOrder)
    (ip : IpAddr) (r : CanonicalRule) : Prop :=
  literalOf r = some ip ∨ ∃ host ∈ hostsNamed cache r,
    ip ∈ cappedForHost cache host .both ∧ readsFirst order (nameClaimOf rules r) = true

def InNarrower (support : RuleShapeSupport) (ip : IpAddr) (len : ℕ) (r : CanonicalRule) : Prop :=
  ∃ net ∈ networksOf support r, net.contains ip = true ∧ len < net.prefixLen

theorem named_of_holds (h : Holds b cache order support ip link) :
    ∃ r ∈ routeRules (b.setFor (roleOf link)),
      NamedFirst (b.setFor (roleOf link)) cache order ip r := by
  rcases h with hlit | ⟨host, c, hc, hip, hfirst⟩
  · obtain ⟨r, hr, hl⟩ := mem_literals.mp hlit
    exact ⟨r, hr, Or.inl hl⟩
  · obtain ⟨r, hr, hhost, rfl⟩ := carried_rule hc
    exact ⟨r, hr, Or.inr ⟨host, hhost, hip, hfirst⟩⟩

theorem holds_of_named (hr : r ∈ routeRules (b.setFor (roleOf link)))
    (h : NamedFirst (b.setFor (roleOf link)) cache order ip r) :
    ∃ l, Holds b cache order support ip l := by
  rcases h with hlit | ⟨host, hhost, hip, hfirst⟩
  · exact ⟨link, Or.inl (mem_literals.mpr ⟨r, hr, hlit⟩)⟩
  · obtain ⟨e, he, hge⟩ := @host_carried b cache support _ r host hr hhost
    exact ⟨e.1, Or.inr ⟨host, e.2, he, hip, reads_first_mono hge hfirst⟩⟩

theorem named_above_network (len : ℕ) :
    (valueAt (resolveWithSupport b cache order support).routeRank ip).any
        (subnetRank len order < ·) = true ↔
      ∃ link, Holds b cache order support ip link := by
  have hbest := strongest_any_lt (raise_all_strongest (routeEntries cache
    (nameClaims b.primary cache support) (nameClaims b.secondary cache support) order) ip)
    (subnetRank len order)
  refine hbest.trans ?_
  simp only [Set.mem_ofPred_eq, mem_route_entries]
  constructor
  · intro h
    obtain ⟨rank, ⟨⟨_ | _, hlit⟩, rfl⟩ | ⟨host, e, ⟨hc, hip⟩, rfl⟩, hlt⟩ := h
    · exact ⟨.main, Or.inl hlit⟩
    · exact ⟨.additional, Or.inl hlit⟩
    · exact ⟨e.1, Or.inr ⟨host, e.2, hc, hip, (reads_first_iff len).mpr hlt⟩⟩
  · intro h
    obtain ⟨link, hlit | ⟨host, c, hc, hip, hfirst⟩⟩ := h
    · exact ⟨_, Or.inl ⟨⟨_, hlit⟩, rfl⟩, subnet_below_literal len order⟩
    · exact ⟨_, Or.inr ⟨host, (link, c), ⟨hc, hip⟩, rfl⟩, (reads_first_iff len).mp hfirst⟩

theorem subnet_rank_lt_iff {m n : ℕ} :
    subnetRank m order < subnetRank n order ↔ m < n := by
  cases order <;> simp [subnetRank, Prod.Lex.toLex_lt_toLex]

theorem network_above_network (len : ℕ) :
    ((networksOfBook b support).longest ip).any
        (fun e => decide (subnetRank len order < subnetRank e.1.prefixLen order)) = true ↔
      ∃ link, ∃ r ∈ routeRules (b.setFor (roleOf link)), InNarrower support ip len r := by
  rw [network_outranks_iff]
  constructor
  · intro h
    obtain ⟨role, _, ⟨net, hnet, hc, rfl⟩, hlt⟩ := h
    obtain ⟨r, hr, hmem⟩ := List.mem_flatMap.mp hnet
    have hin : InNarrower support ip len r := ⟨net, hmem, hc, subnet_rank_lt_iff.mp hlt⟩
    cases role with
    | primary => exact ⟨.main, r, hr, hin⟩
    | secondary => exact ⟨.additional, r, hr, hin⟩
  · intro h
    obtain ⟨link, r, hr, net, hmem, hc, hlt⟩ := h
    exact ⟨roleOf link, _, ⟨net, List.mem_flatMap.mpr ⟨r, hr, hmem⟩, hc, rfl⟩,
      subnet_rank_lt_iff.mpr hlt⟩

theorem network_block_yields_iff {m : CanonicalAddressMatch} {net : IpBlock}
    (hm : m.ipBlocks.isSome = true) (hnet : net ∈ m.ipBlocks.getD [])
    (hin : net.contains ip = true) :
    (resolveWithSupport b cache order support).blockYields ip m = true ↔
      ∃ link, ∃ r ∈ routeRules (b.setFor (roleOf link)),
        NamedFirst (b.setFor (roleOf link)) cache order ip r ∨
          InNarrower support ip net.prefixLen r := by
  have hfind := (@TierRanks.holding_block_iff (some m) ip net).mpr ⟨hnet, hin⟩
  rw [Option.bind_some] at hfind
  have horder : (resolveWithSupport b cache order support).order = order := rfl
  have hheld : (∃ link, Holds b cache order support ip link) ↔
      ∃ link, ∃ r ∈ routeRules (b.setFor (roleOf link)),
        NamedFirst (b.setFor (roleOf link)) cache order ip r := by
    constructor
    · exact fun ⟨link, h⟩ => ⟨link, named_of_holds h⟩
    · exact fun ⟨_, r, hr, h⟩ => holds_of_named hr h
  rw [AddressOwnership.blockYields, horder, BlockAgreement.block_rank_network m hm, hfind,
    Option.map_some, Option.any_some, AddressOwnership.outranked, Bool.or_eq_true, horder]
  simp only [and_or_left, exists_or]
  exact or_congr ((named_above_network _).trans hheld) (network_above_network _)

theorem mem_claims_iff :
    ip ∈ networkBeatingClaims (b.setFor role) cache order support ↔
      ∃ r ∈ routeRules (b.setFor role), r.action = .route ∧
        NamedFirst (b.setFor role) cache order ip r := by
  rw [networkBeatingClaims, BlockGeometry.mem_address_set, List.mem_flatMap]
  refine exists_congr fun r => ?_
  rw [List.mem_filter, carried_iff, and_assoc, and_assoc, mem_beating_iff (b.setFor role)]
  refine and_congr_right fun hr => and_congr_right fun _ => and_iff_right_of_imp fun hnamed => ?_
  exact destination_supported (mem_route_rules.mp hr).2.2.1
    (beating_not_network ((mem_beating_iff (b.setFor role)).mpr hnamed))

theorem narrower_route_iff (len : ℕ) :
    (∃ net ∈ routeNetworks (b.setFor role) support, net.contains ip = true ∧ len < net.prefixLen) ↔
      ∃ r ∈ routeRules (b.setFor role), r.action = .route ∧ InNarrower support ip len r := by
  simp only [routeNetworks, List.mem_flatMap, List.mem_filter, carried_iff, InNarrower, networksOf,
    blocksOf]
  constructor
  · intro h
    obtain ⟨net, ⟨r, ⟨hr, ha, hs⟩, hnet⟩, hc⟩ := h
    exact ⟨r, hr, ha, net, by rwa [if_pos hs], hc⟩
  · intro h
    obtain ⟨r, hr, ha, net, hnet, hc⟩ := h
    split at hnet
    · rename_i hs
      exact ⟨net, ⟨r, ⟨hr, ha, hs⟩, hnet⟩, hc⟩
    · cases hnet

/-- What comes before a network of this length at the address, if anything but a Block does, is
backed by a route in a narrower network, or by one that names the address for its owner. -/
def RouteKept (b : CanonicalRuleBook) (cache : FqdnCacheSnapshot) (order : ZoneVsIpOrder)
    (support : RuleShapeSupport) (ip : IpAddr) (len : ℕ) : Prop :=
  (∃ link, ∃ r ∈ routeRules (b.setFor (roleOf link)),
    NamedFirst (b.setFor (roleOf link)) cache order ip r ∨ InNarrower support ip len r) →
  ∃ link, ∃ r ∈ routeRules (b.setFor (roleOf link)), r.action = .route ∧
    (NamedFirst (b.setFor (roleOf link)) cache order ip r ∧
      (resolveWithSupport b cache order support).ownerOf ip = some link ∨
        InNarrower support ip len r)

theorem block_holes_contain {c : NetworkCarving} {block : IpBlock}
    (hin : block.contains ip = true) :
    (∃ hole ∈ c.holes block link .block, hole.contains ip = true) ↔
      (∃ l, ip ∈ claimedAddresses c l) ∨
        ∃ l, ∃ net ∈ claimedNetworks c l, net.contains ip = true ∧
          block.prefixLen < net.prefixLen := by
  have hsides {p : Link → Prop} : (∃ l, p l) ↔ p .main ∨ p .additional := by
    constructor
    · intro h
      obtain ⟨_ | _, hp⟩ := h
      · exact Or.inl hp
      · exact Or.inr hp
    · intro h
      exact h.elim (fun h => ⟨_, h⟩) fun h => ⟨_, h⟩
  simp only [NetworkCarving.holes, List.mem_append, or_and_right, exists_or,
    addresses_in_contains, narrower_contains hin, Bool.false_eq_true, false_and, or_false, hin,
    and_true, hsides, claimedAddresses, claimedNetworks]

theorem block_holes_iff {net : IpBlock}
    (hr : r ∈ (b.setFor (roleOf link)).rules) (he : r.enabled = true) (hact : r.action = .block)
    (hnet : isNetwork r = true) (hsup : (ruleVerdict r support).isSupported = true)
    (hin : net.contains ip = true) :
    (∃ hole ∈ (bookCarving b cache order support).holes net link .block,
        hole.contains ip = true) ↔
      ∃ link, ∃ r ∈ routeRules (b.setFor (roleOf link)), r.action = .route ∧
        (NamedFirst (b.setFor (roleOf link)) cache order ip r ∧
          (resolveWithSupport b cache order support).ownerOf ip = some link ∨
            InNarrower support ip net.prefixLen r) := by
  have hblock : hasNetworkBlock b support = true :=
    List.any_eq_true.mpr ⟨r, mem_all_rules.mpr ⟨_, hr⟩, by simp [he, hact, hnet, hsup]⟩
  rw [block_holes_contain hin]
  simp only [bookCarving, index_networks, narrower_route_iff, mem_claims_iff,
    mem_index_addresses (resolveWithSupport b cache order support)
      (by simp [hblock] : ¬((routeNetworks b.primary support).isEmpty &&
        (routeNetworks b.secondary support).isEmpty && !hasNetworkBlock b support) = true),
    and_or_left, exists_or]
  refine or_congr (exists_congr fun l => ?_) Iff.rfl
  constructor
  · intro h
    obtain ⟨⟨r, hr, ha, hnamed⟩, hown⟩ := h
    exact ⟨r, hr, ha, hnamed, hown⟩
  · intro h
    obtain ⟨r, hr, ha, hnamed, hown⟩ := h
    exact ⟨⟨r, hr, ha, hnamed⟩, hown⟩

end

/-- A network Block's filters agree with the arbiter at an address of the Block, in a piece exactly
where the Block does not yield, if and only if a route the carving keeps is behind every yield. -/
theorem blocked_pieces_exact (b : CanonicalRuleBook) (cache : FqdnCacheSnapshot)
    (order : ZoneVsIpOrder) (support : RuleShapeSupport) (families : FamilyScope) (link : Link)
    (r : CanonicalRule) (m : CanonicalAddressMatch)
    (hr : r ∈ (b.setFor (roleOf link)).rules) (he : r.enabled = true) (hact : r.action = .block)
    (hm : r.addressMatch = some m) (hnet : isNetwork r = true)
    (hsup : (ruleVerdict r support).isSupported = true)
    (hcap : ((bookCarving b cache order support).pieces (blocksOf r) link .block families).overCap =
      none) (ip : IpAddr) (hfam : families.admits ip = true) (net : IpBlock)
    (hmem : net ∈ blocksOf r) (hin : net.contains ip = true) :
    ((∃ p ∈ ((bookCarving b cache order support).pieces (blocksOf r) link .block families).pieces,
        p.contains ip = true) ↔
      (resolveWithSupport b cache order support).blockYields ip m = false) ↔
    RouteKept b cache order support ip net.prefixLen := by
  have hsome : m.ipBlocks.isSome = true := by simpa [isNetwork, hm] using hnet
  have hblocks : blocksOf r = m.ipBlocks.getD [] := by rw [blocksOf, hm, Option.bind_some]
  have hcovered : (∃ p ∈ ((bookCarving b cache order support).pieces (blocksOf r) link .block
      families).pieces, p.contains ip = true) ↔
      ¬∃ hole ∈ (bookCarving b cache order support).holes net link .block,
        hole.contains ip = true := by
    rw [pieces_cover hcap ip]
    constructor
    · rintro ⟨net', hmem', -, hc, hout⟩ ⟨hole, hhole, hcontains⟩
      -- the blocks of one rule do not overlap
      have hfind := (@TierRanks.holding_block_iff (some m) ip net).mpr ⟨hblocks ▸ hmem, hin⟩
      have hfind' := (@TierRanks.holding_block_iff (some m) ip net').mpr ⟨hblocks ▸ hmem', hc⟩
      obtain rfl := Option.some.inj (hfind.symm.trans hfind')
      simp [hout hole hhole] at hcontains
    · intro hnone
      refine ⟨net, hmem, by rw [admits_network hin, hfam], hin, fun hole hhole => ?_⟩
      by_contra hcontains
      exact hnone ⟨hole, hhole, by simpa using hcontains⟩
  rw [hcovered, ← Bool.not_eq_true, not_iff_not, block_holes_iff hr he hact hnet hsup hin,
    network_block_yields_iff hsome (hblocks ▸ hmem) hin, RouteKept]
  constructor
  · exact fun h => h.mpr
  · intro h
    refine ⟨fun hkept => ?_, h⟩
    obtain ⟨l, q, hq, -, hfirst⟩ := hkept
    exact ⟨l, q, hq, hfirst.imp_left And.left⟩

/-- A host of each link at one address of the blocked network 10.0.0.0/8: the main link carries its
own through the zone, the other link by the full name. -/
def sharedBook : CanonicalRuleBook :=
  bookOf [addressRule "R-1" true (.subnet tenNet) .block,
    addressRule "R-2" true (.zone "com".toList) .route]
    [addressRule "R-3" true (.exactFqdn "b.org".toList) .route]

def sharedNames : FqdnCacheSnapshot where
  byHostname := [("a.com".toList, [.v4 0x0A010001]), ("b.org".toList, [.v4 0x0A010001])]
  hostnamesByRecency := ["a.com".toList, "b.org".toList]
  listed := by simp

theorem blocked_pieces_exact_shared :
    (∃ p ∈ ((bookCarving sharedBook sharedNames .zoneFirst everyShape).pieces [tenNet] .main .block
        .both).pieces, p.contains (.v4 0x0A010001) = true) ↔
      (resolveWithSupport sharedBook sharedNames .zoneFirst everyShape).blockYields
        (.v4 0x0A010001) (.subnet tenNet) = false := by
  refine (blocked_pieces_exact sharedBook sharedNames .zoneFirst everyShape .both .main
    (addressRule "R-1" true (.subnet tenNet) .block) _ (by decide +kernel) rfl rfl rfl rfl rfl
    (by decide +kernel) _ rfl tenNet (List.mem_singleton.mpr rfl) (by decide +kernel)).mpr fun _ => ?_
  -- the zone is read before networks here, and its link owns the address
  refine ⟨.main, addressRule "R-2" true (.zone "com".toList) .route, by decide +kernel, rfl,
    Or.inl ⟨Or.inr ⟨"a.com".toList, ?_, ?_, rfl⟩, ?_⟩⟩
  all_goals decide +kernel

/-- Where networks are read before zones the main link still owns the address, so the filters cover
what the Block yields to the name of the other link. -/
theorem contested_address_not_spared :
    (∃ p ∈ ((bookCarving sharedBook sharedNames .exactIpFirst everyShape).pieces [tenNet] .main
        .block .both).pieces, p.contains (.v4 0x0A010001) = true) ∧
      (resolveWithSupport sharedBook sharedNames .exactIpFirst everyShape).blockYields
        (.v4 0x0A010001) (.subnet tenNet) = true := by
  decide +kernel

end NetRuleRouter.BlockedNetworks
