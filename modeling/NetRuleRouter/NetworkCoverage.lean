import NetRuleRouter.CarvedNetworks
import NetRuleRouter.NamedAddresses

/-!
# Network filters cover what their link wins

The pieces of a link's network rules hold only addresses the arbiter gives to
that link, and every address of its networks that the link owns by a network.
Both directions go through the narrowest network that holds the address: the
other link carves a block exactly where one of its claims comes first.
-/

set_option autoImplicit false

namespace NetRuleRouter.NetworkCoverage
open TextOps IpNetwork Canonical
open HostMatching (zoneRanksAsSuffix)
open RuleMatching (roleRank)
open StrongestTable FqdnCache LongestPrefix Arbiter HostClaims OwnerTiers BlockGeometry
open CarvedNetworks NamedAddresses

variable {role : RouteRole} {net : IpBlock} {block : IpBlock}

section
variable {b : CanonicalRuleBook} {cache : FqdnCacheSnapshot} {order : ZoneVsIpOrder}
variable {support : RuleShapeSupport} {ip : IpAddr} {r : CanonicalRule} {link : Link}

def NoAddressVerify (b : CanonicalRuleBook) : Prop :=
  ∀ role, ∀ r ∈ (b.setFor role).rules, r.enabled = true → r.appMatch = none → r.action ≠ .verify

theorem carried_iff : r ∈ (b.setFor role).rules ∧ carriedRoute support r = true ↔
    r ∈ routeRules (b.setFor role) ∧ r.action = .route ∧
      (ruleVerdict r support).isSupported = true := by
  rw [mem_route_rules]
  simp only [carriedRoute, Bool.and_eq_true, beq_iff_eq, Option.isNone_iff_eq_none]
  constructor
  · intro h
    obtain ⟨hr, ⟨⟨he, ha⟩, hn⟩, hs⟩ := h
    exact ⟨⟨hr, he, hn, by simp [ha]⟩, ha, hs⟩
  · intro h
    obtain ⟨⟨hr, he, hn, -⟩, ha, hs⟩ := h
    exact ⟨hr, ⟨⟨he, ha⟩, hn⟩, hs⟩

theorem carried_route_iff (hv : NoAddressVerify b) :
    r ∈ (b.setFor role).rules ∧ carriedRoute support r = true ↔
      r ∈ routeRules (b.setFor role) ∧ (ruleVerdict r support).isSupported = true := by
  rw [carried_iff, ← and_assoc]
  refine and_congr_left fun _ => and_iff_left_of_imp fun hr => ?_
  obtain ⟨hr, he, hn, ha⟩ := mem_route_rules.mp hr
  cases hact : r.action with
  | route => rfl
  | block => exact absurd hact ha
  | verify => exact absurd hact (hv role r hr he hn)

theorem mem_route_networks (hv : NoAddressVerify b) :
    net ∈ routeNetworks (b.setFor role) support ↔
      net ∈ (routeRules (b.setFor role)).flatMap (networksOf support) := by
  rw [routeNetworks, List.mem_flatMap, List.mem_flatMap]
  refine exists_congr fun r => ?_
  rw [List.mem_filter, carried_route_iff hv, and_assoc, networksOf]
  refine and_congr_right fun _ => ?_
  split
  · rename_i hs
    simp [hs, blocksOf]
  · rename_i hs
    simp [hs]

theorem destination_supported (happ : r.appMatch = none) (hnet : isNetwork r = false) :
    (ruleVerdict r support).isSupported = true := by
  cases ha : r.addressMatch with
  | none => simp [ruleVerdict, shapeOf, happ, ha, ShapeVerdict.isSupported]
  | some m =>
    simp [ruleVerdict, shapeOf, happ, ha, hnet, shapeVerdict, ShapeVerdict.isSupported]

theorem beating_not_network (h : ip ∈ beatingAddresses cache order r) : isNetwork r = false := by
  unfold beatingAddresses at h
  split at h <;> simp_all [isNetwork, CanonicalAddressMatch.ipBlocks]

theorem mem_beating_claims (hv : NoAddressVerify b) :
    ip ∈ networkBeatingClaims (b.setFor role) cache order support ↔
      ∃ r ∈ routeRules (b.setFor role), ip ∈ beatingAddresses cache order r := by
  rw [networkBeatingClaims, mem_address_set, List.mem_flatMap]
  refine exists_congr fun r => ?_
  rw [List.mem_filter, carried_route_iff hv, and_assoc]
  refine and_congr_right fun hr => and_iff_right_of_imp fun hip => ?_
  exact destination_supported (mem_route_rules.mp hr).2.2.1 (beating_not_network hip)

theorem mem_beating_iff (s : CanonicalRuleSet) :
    ip ∈ beatingAddresses cache order r ↔ literalOf r = some ip ∨
      ∃ host ∈ hostsNamed cache r, ip ∈ cappedForHost cache host .both ∧
        readsFirst order (nameClaimOf s r) = true := by
  have hzone (zone : Text) : readsFirst order (zoneClaim zone (some (s, r.appMatch))) = true ↔
      order = .zoneFirst ∨ zoneRanksAsSuffix zone = true := by
    rw [zoneClaim, readsFirst]
    cases zoneRanksAsSuffix zone with
    | false => simp [NameClaim.isZone]
    | true => cases s.holdsSuffix zone r.appMatch <;> simp [NameClaim.isZone]
  unfold beatingAddresses literalOf hostsNamed nameClaimOf
  rcases r.addressMatch with _ | (_ | _ | _ | zone | _ | _ | _)
  case some.zone =>
    simp only [hzone]
    split
    · rename_i hfirst
      simp [hfirst]
    · rename_i hlast
      simp [hlast]
  all_goals simp [readsFirst, NameClaim.isZone, eq_comm]

theorem held_beats (hv : NoAddressVerify b) (hheld : ip ∈ literals (b.setFor (roleOf link)) ∨
      (valueAt (linkClaims b cache support link) ip).isSome = true)
    (hclose : ¬(order = .exactIpFirst ∧
      (valueAt (linkClaims b cache support link) ip).any NameClaim.isZone = true ∧
        ip ∉ literals (b.setFor (roleOf link)))) :
    ip ∈ networkBeatingClaims (b.setFor (roleOf link)) cache order support := by
  rw [mem_beating_claims hv]
  by_cases hlit : ip ∈ literals (b.setFor (roleOf link))
  · obtain ⟨r, hr, hl⟩ := mem_literals.mp hlit
    exact ⟨r, hr, (mem_beating_iff (b.setFor (roleOf link))).mpr (Or.inl hl)⟩
  · obtain ⟨c, hc⟩ := Option.isSome_iff_exists.mp (hheld.resolve_left hlit)
    obtain ⟨r, hr, hclaim, host, hhost, hip⟩ := claim_rule hc
    refine ⟨r, hr, (mem_beating_iff (b.setFor (roleOf link))).mpr
      (Or.inr ⟨host, hhost, hip, ?_⟩)⟩
    rw [hclaim]
    cases order with
    | zoneFirst => simp [readsFirst]
    | exactIpFirst =>
      have hz : c.isZone = false := by
        by_contra hz
        exact hclose ⟨rfl, by simpa [hc] using hz, hlit⟩
      simp [readsFirst, hz]

theorem main_beats (hv : NoAddressVerify b) (hne : (networksOfBook b support).isEmpty = false)
    (hm : ip ∈ (resolveWithSupport b cache order support).main)
    (hz : ip ∉ (resolveWithSupport b cache order support).mainZoneOnly) :
    ip ∈ networkBeatingClaims b.primary cache order support := by
  refine @held_beats b cache order support ip .main hv (mem_main_iff.mp hm).1 fun h => hz ?_
  exact mem_zone_only.mpr ⟨h.1, hne, h.2.1, hm, h.2.2⟩

theorem additional_beats (hv : NoAddressVerify b) (hne : (networksOfBook b support).isEmpty = false)
    (ha : ip ∈ (resolveWithSupport b cache order support).additional)
    (hz : ip ∉ (resolveWithSupport b cache order support).additionalZoneOnly) :
    ip ∈ networkBeatingClaims b.secondary cache order support := by
  refine @held_beats b cache order support ip .additional hv (mem_additional.mp ha)
    fun h => hz ?_
  exact mem_zone_only.mpr ⟨h.1, hne, h.2.1, ha, h.2.2⟩

theorem other_owner_beats (hv : NoAddressVerify b) {other : Link}
    (hw : (networksOfBook b support).winner ip = some link) (hne : other ≠ link)
    (hown : (resolveWithSupport b cache order support).ownerOf ip = some other) :
    ip ∈ networkBeatingClaims (b.setFor (roleOf other)) cache order support := by
  have hfull := winner_nonempty ⟨_, _, rfl⟩ hw
  rw [owner_resolved, AddressOwnership.addressOwner, resolved_networks, hw] at hown
  by_cases hm : ip ∈ (resolveWithSupport b cache order support).main
  · rw [if_pos hm] at hown
    by_cases hz : ip ∈ (resolveWithSupport b cache order support).mainZoneOnly
    · cases link <;> cases other <;> simp_all
    · cases other with
      | main => exact main_beats hv hfull hm hz
      | additional => simp [hz] at hown
  · rw [if_neg hm] at hown
    by_cases ha : ip ∈ (resolveWithSupport b cache order support).additional
    · rw [if_pos ha] at hown
      by_cases hz : ip ∈ (resolveWithSupport b cache order support).additionalZoneOnly
      · cases link <;> cases other <;> simp_all
      · cases other with
        | additional => exact additional_beats hv hfull ha hz
        | main => simp [hz] at hown
    · rw [if_neg ha, Option.some.injEq] at hown
      exact absurd hown.symm hne

theorem owned_of_claimed (h : ip ∈ (resolveWithSupport b cache order support).additional ∨
      (networksOfBook b support).winner ip = some link) :
    ∃ owner, (resolveWithSupport b cache order support).ownerOf ip = some owner := by
  rw [owner_resolved, AddressOwnership.addressOwner, resolved_networks]
  split
  · split
    · exact ⟨_, rfl⟩
    · exact ⟨_, rfl⟩
  · split
    · split
      · exact ⟨_, rfl⟩
      · exact ⟨_, rfl⟩
    · rename_i ha
      exact ⟨link, h.resolve_left ha⟩

def claimedAddresses (c : NetworkCarving) : Link → List IpAddr
  | .main => c.mainAddresses
  | .additional => c.additionalAddresses

def claimedNetworks (c : NetworkCarving) : Link → List IpBlock
  | .main => c.mainNetworks
  | .additional => c.additionalNetworks

/-- A network of the other link comes before `block`: the main link wins a tie. -/
def comesBefore (link : Link) (block other : IpBlock) : Prop :=
  match link with
  | .main => block.prefixLen < other.prefixLen
  | .additional => block.prefixLen ≤ other.prefixLen

theorem narrower_contains (hin : block.contains ip = true) (nets : List IpBlock) (tie : Bool) :
    (∃ hole ∈ nets.filter fun other => block.covers other &&
        (decide (block.prefixLen < other.prefixLen) || tie && other == block),
      hole.contains ip = true) ↔
    ∃ other ∈ nets, other.contains ip = true ∧
      (block.prefixLen < other.prefixLen ∨ tie = true ∧ other = block) := by
  refine exists_congr fun other => ?_
  simp only [List.mem_filter, Bool.and_eq_true, Bool.or_eq_true, decide_eq_true_eq, beq_iff_eq]
  constructor
  · intro h
    exact ⟨h.1.1, h.2, h.1.2.2⟩
  · intro h
    obtain ⟨hmem, hc, hlen⟩ := h
    refine ⟨⟨hmem, covers_of_contains hin hc ?_, hlen⟩, hc⟩
    rcases hlen with hlt | ⟨-, rfl⟩
    · exact hlt.le
    · exact le_rfl

theorem holes_contain {c : NetworkCarving} (hin : block.contains ip = true) :
    (∃ hole ∈ c.holes block link .route, hole.contains ip = true) ↔
      ip ∈ claimedAddresses c (otherLink link) ∨
        ∃ other ∈ claimedNetworks c (otherLink link), other.contains ip = true ∧
          comesBefore link block other := by
  cases link with
  | main =>
    simp only [NetworkCarving.holes, List.mem_append, or_and_right, exists_or,
      addresses_in_contains, narrower_contains hin, hin, otherLink, claimedAddresses, claimedNetworks,
      comesBefore]
    simp
  | additional =>
    simp only [NetworkCarving.holes, List.mem_append, or_and_right, exists_or,
      addresses_in_contains, narrower_contains hin, hin, otherLink, claimedAddresses, claimedNetworks,
      comesBefore, and_true, true_and]
    refine or_congr_right (exists_congr fun other => and_congr_right fun _ =>
      and_congr_right fun hc => ?_)
    constructor
    · intro h
      rcases h with hlt | rfl
      · exact hlt.le
      · exact le_rfl
    · intro hle
      exact hle.lt_or_eq.imp_right fun heq => same_length_eq hc hin heq.symm

theorem index_networks (o : AddressOwnership) (denylist : List (BitVec 32)) (link : Link) :
    claimedNetworks (NetworkCarving.index b cache o order support denylist) link =
      routeNetworks (b.setFor (roleOf link)) support := by
  unfold NetworkCarving.index
  dsimp only
  split
  · rename_i hempty
    simp only [Bool.and_eq_true, List.isEmpty_iff] at hempty
    cases link with
    | main => exact hempty.1.1.symm
    | additional => exact hempty.1.2.symm
  · cases link <;> rfl

theorem mem_index_addresses (o : AddressOwnership)
    (hfull : ¬((routeNetworks b.primary support).isEmpty &&
      (routeNetworks b.secondary support).isEmpty && !hasNetworkBlock b support) = true)
    (other : Link) :
    ip ∈ claimedAddresses (NetworkCarving.index b cache o order support []) other ↔
      ip ∈ networkBeatingClaims (b.setFor (roleOf other)) cache order support ∧
        o.ownerOf ip = some other := by
  unfold NetworkCarving.index
  dsimp only
  rw [if_neg hfull]
  have hdenied : denied [] ip = false := by cases ip <;> rfl
  cases other with
  | main => simp [claimedAddresses, roleOf, CanonicalRuleBook.setFor]
  | additional => simp [claimedAddresses, roleOf, CanonicalRuleBook.setFor, hdenied]

theorem index_addresses (o : AddressOwnership)
    (hnet : net ∈ routeNetworks (b.setFor (roleOf link)) support) (other : Link) :
    ip ∈ claimedAddresses (NetworkCarving.index b cache o order support []) other ↔
      ip ∈ networkBeatingClaims (b.setFor (roleOf other)) cache order support ∧
        o.ownerOf ip = some other := by
  refine mem_index_addresses o ?_ other
  simp only [Bool.and_eq_true, List.isEmpty_iff]
  intro h
  cases link with
  | main => exact List.ne_nil_of_mem hnet h.1.1
  | additional => exact List.ne_nil_of_mem hnet h.1.2

/-- The carving of a book, with no shared address kept off the tunnel. -/
def bookCarving (b : CanonicalRuleBook) (cache : FqdnCacheSnapshot) (order : ZoneVsIpOrder)
    (support : RuleShapeSupport) : NetworkCarving :=
  NetworkCarving.index b cache (resolveWithSupport b cache order support) order support []

def Covered (c : NetworkCarving) (b : CanonicalRuleBook) (support : RuleShapeSupport)
    (families : FamilyScope) (link : Link) (ip : IpAddr) : Prop :=
  ∃ r ∈ (b.setFor (roleOf link)).rules, carriedRoute support r = true ∧
    ∃ p ∈ (c.pieces (blocksOf r) link r.action families).pieces, p.contains ip = true

theorem winner_iff_uncontested (hv : NoAddressVerify b) :
    (networksOfBook b support).winner ip = some link ↔
      ∃ net ∈ routeNetworks (b.setFor (roleOf link)) support, net.contains ip = true ∧
        ∀ other ∈ routeNetworks (b.setFor (roleOf (otherLink link))) support,
          other.contains ip = true → ¬comesBefore link net other := by
  simp only [mem_route_networks hv]
  have hties {net other : IpBlock} : comesBefore link net other ↔
      ¬(other.prefixLen < net.prefixLen ∨ other.prefixLen = net.prefixLen ∧
        roleRank (roleOf link) ≤ roleRank (roleOf (otherLink link))) := by
    cases link <;> simp only [comesBefore, otherLink, roleOf, roleRank] <;> omega
  constructor
  · intro h
    obtain ⟨_, hnarrow, rfl⟩ := Option.map_eq_some_iff.mp h
    obtain ⟨e, hl, rfl⟩ := Option.map_eq_some_iff.mp hnarrow
    obtain ⟨⟨net, hnet, hc, hlen⟩, hmost⟩ := longest_network support hl
    refine ⟨net, hnet, hc, fun other ho hoc hbefore => hties.mp hbefore ?_⟩
    exact hlen ▸ hmost _ _ ⟨other, ho, hoc, rfl⟩
  · intro h
    obtain ⟨net, hnet, hc, hfirst⟩ := h
    cases hl : (networksOfBook b support).longest ip with
    | none => exact (no_network support hl _ _ ⟨net, hnet, hc, rfl⟩).elim
    | some e =>
      obtain ⟨⟨other, ho, hoc, hlen⟩, hmost⟩ := longest_network support hl
      have hle := hlen ▸ hmost _ _ ⟨net, hnet, hc, rfl⟩
      rw [NetworkClaims.winner, NetworkClaims.narrowest, hl, Option.map_some, Option.map_some]
      by_contra hne
      have hother : e.2.winner = otherLink link := eq_other_link fun heq => hne (congrArg some heq)
      rw [hother] at ho hle
      have hkept := not_not.mp (mt hties.mpr (hfirst other ho hoc))
      cases link <;> simp [otherLink, roleOf, roleRank] at hle hkept <;> omega

section
variable {families : FamilyScope}

theorem carried_action (h : carriedRoute support r = true) : r.action = .route := by
  simp only [carriedRoute, Bool.and_eq_true, beq_iff_eq] at h
  exact h.1.1.2

theorem admits_network (h : net.contains ip = true) :
    families.admits net.network = families.admits ip := by
  have hfam := ((block_contains_iff _ _).mp h).1
  cases families <;> simp [FamilyScope.admits, hfam]

theorem covered_owner (hv : NoAddressVerify b)
    (h : Covered (bookCarving b cache order support) b support families link ip) :
    (resolveWithSupport b cache order support).ownerOf ip = some link := by
  obtain ⟨r, hr, hcarried, hpiece⟩ := h
  rw [carried_action hcarried] at hpiece
  have hcap : ((bookCarving b cache order support).pieces (blocksOf r) link .route
      families).overCap = none := by
    by_contra hover
    rw [over_cap_covers_nothing hover] at hpiece
    simp at hpiece
  obtain ⟨net, hnet, -, hin, hholes⟩ := (pieces_cover hcap ip).mp hpiece
  have hroute : net ∈ routeNetworks (b.setFor (roleOf link)) support :=
    List.mem_flatMap.mpr ⟨r, List.mem_filter.mpr ⟨hr, hcarried⟩, hnet⟩
  have hno : ¬∃ hole ∈ (bookCarving b cache order support).holes net link .route,
      hole.contains ip = true := by
    simpa using hholes
  have houtside := mt (holes_contain hin).mpr hno
  rw [bookCarving, index_networks, index_addresses _ hroute] at houtside
  push Not at houtside
  obtain ⟨haddr, hnets⟩ := houtside
  have hw := (winner_iff_uncontested hv).mpr ⟨net, hroute, hin, hnets⟩
  obtain ⟨owner, hown⟩ := @owned_of_claimed b cache order support ip link (Or.inr hw)
  -- an owner that is not the link's own would have left the address out of the piece
  by_cases hsame : owner = link
  · rw [hown, hsame]
  · rw [eq_other_link hsame] at hown hsame
    exact absurd hown (haddr (other_owner_beats hv hw hsame hown))

theorem unnamed_covered (hv : NoAddressVerify b)
    (hcap : ∀ r ∈ (b.setFor (roleOf link)).rules, carriedRoute support r = true →
      ((bookCarving b cache order support).pieces (blocksOf r) link r.action families).overCap = none)
    (hfam : families.admits ip = true) (hn : ¬Named b cache ip)
    (hown : (resolveWithSupport b cache order support).ownerOf ip = some link) :
    Covered (bookCarving b cache order support) b support families link ip := by
  rw [owner_of_unnamed hn] at hown
  obtain ⟨net, hroute, hin, hnets⟩ := (winner_iff_uncontested hv).mp hown
  obtain ⟨r, hr, hnet⟩ := List.mem_flatMap.mp hroute
  obtain ⟨hr, hcarried⟩ := List.mem_filter.mp hr
  refine ⟨r, hr, hcarried, (pieces_cover (hcap r hr hcarried) ip).mpr ⟨net, hnet, ?_, hin, ?_⟩⟩
  · rw [admits_network hin, hfam]
  · intro hole hmem
    rw [carried_action hcarried] at hmem
    by_contra hc
    rw [Bool.not_eq_false] at hc
    have hhole := (holes_contain hin).mp ⟨hole, hmem, hc⟩
    rw [bookCarving, index_networks, index_addresses _ hroute, mem_beating_claims hv] at hhole
    rcases hhole with ⟨⟨r', hr', hbeats⟩, -⟩ | ⟨other, hother, hoc, hbefore⟩
    · exact hn ⟨_, r', hr', ((mem_beating_iff b.primary).mp hbeats).imp_right
        fun ⟨host, hhost, hip, _⟩ => ⟨host, hhost, hip⟩⟩
    · exact hnets other hother hoc hbefore

end

/-- Network filters cover what their link wins: the pieces of a link's network rules hold only
addresses the arbiter gives to that link, and among the addresses of its networks that no rule
names, all of them. -/
theorem network_pieces_exact (b : CanonicalRuleBook) (cache : FqdnCacheSnapshot)
    (order : ZoneVsIpOrder) (support : RuleShapeSupport) (families : FamilyScope) (link : Link)
    (hv : NoAddressVerify b)
    (hcap : ∀ r ∈ (b.setFor (roleOf link)).rules, carriedRoute support r = true →
      ((bookCarving b cache order support).pieces (blocksOf r) link r.action families).overCap = none) :
    let o := resolveWithSupport b cache order support
    let c := bookCarving b cache order support
    (∀ ip, Covered c b support families link ip → o.ownerOf ip = some link) ∧
      ∀ ip, families.admits ip = true →
        (∃ net ∈ routeNetworks (b.setFor (roleOf link)) support, net.contains ip = true) →
        ¬Named b cache ip → o.ownerOf ip = some link → Covered c b support families link ip := by
  refine ⟨fun ip h => covered_owner hv h, fun ip hfam _ hn hown => ?_⟩
  exact unnamed_covered hv hcap hfam hn hown

end

def nestedBook (action : RuleAction) : CanonicalRuleBook :=
  bookOf [addressRule "R-1" true (.subnet tenNet) .route]
    [addressRule "R-2" true (.subnet innerNet) action]

theorem nested_pieces_exact :
    Covered (bookCarving (nestedBook .route) noNames .exactIpFirst everyShape)
        (nestedBook .route) everyShape .both .main (.v4 0x0A000001) ∧
      ¬Covered (bookCarving (nestedBook .route) noNames .exactIpFirst everyShape)
        (nestedBook .route) everyShape .both .main (.v4 0x0A010001) := by
  have hv : NoAddressVerify (nestedBook .route) := by
    intro role
    cases role <;> decide
  have hn : ¬Named (nestedBook .route) noNames (.v4 0x0A000001) := by
    intro h
    obtain ⟨role, r, hr, hnames⟩ := h
    have hrule : ∀ r ∈ routeRules ((nestedBook .route).setFor role),
        literalOf r = none ∧ hostsNamed noNames r = [] := by
      cases role <;> decide +kernel
    simp [NamesAddress, hrule r hr] at hnames
  have h := network_pieces_exact (nestedBook .route) noNames .exactIpFirst everyShape .both .main hv
    (by decide +kernel)
  refine ⟨h.2 _ rfl (by decide +kernel) hn (by decide +kernel), fun hc => ?_⟩
  have hown := h.1 _ hc
  revert hown
  decide +kernel

/-- A verification on the other link owns the address but does not carve it out. -/
theorem verification_not_carved :
    Covered (bookCarving (nestedBook .verify) noNames .exactIpFirst everyShape)
        (nestedBook .verify) everyShape .both .main (.v4 0x0A010001) ∧
      (resolveWithSupport (nestedBook .verify) noNames .exactIpFirst everyShape).ownerOf
        (.v4 0x0A010001) = some .additional := by
  unfold Covered
  decide +kernel

end NetRuleRouter.NetworkCoverage
