import NetRuleRouter.HostClaims
import NetRuleRouter.RuleMatching

/-!
# The owner of an address, tier by tier

Where one host alone holds an address the arbiter's owner is decided by the
first tier with a claim: names that come before addresses, literals,
networks, zones. The claim that decides is one nothing outranks, and a Block
yields exactly to a route claim of a higher rank.
-/

set_option autoImplicit false

namespace NetRuleRouter.OwnerTiers
open TextOps IpNetwork Canonical StrongestTable FqdnCache LongestPrefix Arbiter HostClaims
open RuleMatching hiding zoneClaim

section
variable {b : CanonicalRuleBook} {cache : FqdnCacheSnapshot} {h : Text} {ip : IpAddr}
variable {order : ZoneVsIpOrder} (support : RuleShapeSupport) {link : Link} {c : NameClaim}
variable {claimed : RouteRole → NameClaim → Prop} {d : NameClaim}

def networksOfBook (b : CanonicalRuleBook) (support : RuleShapeSupport) : NetworkClaims :=
  NetworkClaims.new ((routeRules b.primary).flatMap (networksOf support))
    ((routeRules b.secondary).flatMap (networksOf support))

def literals (s : CanonicalRuleSet) : List IpAddr := (routeRules s).filterMap literalOf

def literalLink (b : CanonicalRuleBook) (ip : IpAddr) : Option Link :=
  if ip ∈ literals b.primary then some .main
  else if ip ∈ literals b.secondary then some .additional
  else none

def readsFirst (order : ZoneVsIpOrder) (c : NameClaim) : Bool := !c.isZone || order == .zoneFirst

/-- The first tier with a claim decides: close names, literals, networks, zones. -/
def tieredOwner (order : ZoneVsIpOrder) (named : Option (Link × NameClaim))
    (literal network : Option Link) : Option Link :=
  ((named.filter fun e => readsFirst order e.2).map Prod.fst).or
    (literal.or (network.or (named.map Prod.fst)))

theorem winner_nonempty {n : NetworkClaims} {ip : IpAddr}
    (hnew : ∃ main additional, n = NetworkClaims.new main additional)
    (hw : n.winner ip = some link) : n.isEmpty = false := by
  obtain ⟨main, additional, rfl⟩ := hnew
  simp only [NetworkClaims.winner, NetworkClaims.narrowest, Option.map_eq_some_iff] at hw
  obtain ⟨_, ⟨e, he, -⟩, -⟩ := hw
  have hmem := (mem_sorted main additional).mpr (longest_some main additional he).2.1
  simpa [NetworkClaims.isEmpty] using List.ne_nil_of_mem hmem

theorem mem_zone_only {networks : NetworkClaims} {held literal : List IpAddr}
    {entries : List (IpAddr × NameClaim)} :
    ip ∈ zoneOnly order networks held literal (raiseAll entries) ↔
      order = .exactIpFirst ∧ networks.isEmpty = false ∧
        (valueAt (raiseAll entries) ip).any NameClaim.isZone = true ∧ ip ∈ held ∧
          ip ∉ literal := by
  unfold zoneOnly
  split
  · rename_i hskip
    refine iff_of_false (by simp) fun h => ?_
    rcases hskip with horder | hempty
    · exact horder h.1
    · simp [hempty] at h
  · rename_i hkeep
    simp only [ne_eq, not_or, not_not, Bool.not_eq_true] at hkeep
    simp only [List.mem_map, List.mem_filter, Prod.exists, exists_and_right, exists_eq_right,
      mem_raise_all, Bool.and_eq_true, Bool.not_eq_true', List.contains_eq_mem,
      decide_eq_true_eq, decide_eq_false_iff_not, Option.any_eq_true]
    constructor
    · intro hc
      obtain ⟨c, hval, ⟨hz, hheld⟩, hlit⟩ := hc
      exact ⟨hkeep.1, hkeep.2, ⟨c, hval, hz⟩, hheld, hlit⟩
    · intro hc
      obtain ⟨-, -, ⟨c, hval, hz⟩, hheld, hlit⟩ := hc
      exact ⟨c, hval, ⟨hz, hheld⟩, hlit⟩

theorem owner_tiers (iso : Isolated b cache h ip)
    (hdisj : ¬(ip ∈ literals b.primary ∧ ip ∈ literals b.secondary)) :
    (resolveWithSupport b cache order support).ownerOf ip =
      tieredOwner order (carriedBy b cache support h) (literalLink b ip)
        ((networksOfBook b support).winner ip) := by
  have hmain := claim_at_address support iso .main
  have hadd := claim_at_address support iso .additional
  have hnonempty (link : Link) :=
    @winner_nonempty link (networksOfBook b support) ip ⟨_, _, rfl⟩
  have hlit1 : (nameClaims b.primary cache support).literal = literals b.primary := rfl
  have hlit2 : (nameClaims b.secondary cache support).literal = literals b.secondary := rfl
  have hnets : NetworkClaims.new (nameClaims b.primary cache support).networks
      (nameClaims b.secondary cache support).networks = networksOfBook b support := rfl
  simp only [AddressOwnership.ownerOf, AddressOwnership.addressOwner, resolveWithSupport,
    mem_zone_only, List.mem_filter, List.mem_append, mem_keys, losesToAdditionalLiteral,
    losesToAdditionalName, hmain, hadd, valueAt, Option.none_or, hlit1, hlit2, hnets,
    List.contains_eq_mem]
  unfold literalLink
  generalize carriedBy b cache support h = named
  generalize networksOfBook b support = nets at hnonempty ⊢
  have hlits : ip ∈ literals b.primary ∧ ip ∉ literals b.secondary ∨
      ip ∉ literals b.primary ∧ ip ∈ literals b.secondary ∨
      ip ∉ literals b.primary ∧ ip ∉ literals b.secondary := by
    tauto
  have hclose (link : Link) (c : NameClaim) :
      ((some (link, c)).filter fun e => readsFirst order e.2).map Prod.fst =
        if readsFirst order c then some link else none := by
    cases hz : readsFirst order c <;> simp [Option.filter, hz]
  -- what is left is finite: the carrier and its kind, the literal, the network and the order
  rcases named with _ | ⟨link, c⟩
  · rcases hlits with ⟨hm, ha⟩ | ⟨hm, ha⟩ | ⟨hm, ha⟩
    · simp [tieredOwner, claimOf, hm, ha]
    · simp [tieredOwner, claimOf, hm, ha]
    · simp [tieredOwner, claimOf, hm, ha]
  · rw [tieredOwner, hclose]
    cases hz : c.isZone with
    | false =>
      rcases hlits with ⟨hm, ha⟩ | ⟨hm, ha⟩ | ⟨hm, ha⟩
      · cases link <;> simp [readsFirst, claimOf, hm, ha, hz]
      · cases link <;> simp [readsFirst, claimOf, hm, ha, hz]
      · cases link <;> simp [readsFirst, claimOf, hm, ha, hz]
    | true =>
      rcases hlits with ⟨hm, ha⟩ | ⟨hm, ha⟩ | ⟨hm, ha⟩
      · cases order <;> cases link <;> simp [readsFirst, claimOf, hm, ha, hz]
      · cases order <;> cases link <;> simp [readsFirst, claimOf, hm, ha, hz]
      · cases hw : nets.winner ip with
        | none => cases order <;> cases link <;> simp [readsFirst, claimOf, hm, ha, hz]
        | some l =>
          have he := hnonempty l hw
          cases order <;> cases link <;> cases l <;>
            simp [readsFirst, claimOf, hm, ha, hz, he]

theorem host_rank_lt_iff : hostRank c order < hostRank d order ↔ c < d := by
  change _ ↔ c.key < d.key
  cases c <;> cases d <;> cases order <;>
    simp [hostRank, NameClaim.key, Prod.Lex.toLex_lt_toLex]

theorem host_rank_le (hcd : c ≤ d) : hostRank c order ≤ hostRank d order :=
  not_lt.mp fun hlt => not_lt.mpr hcd (host_rank_lt_iff.mp hlt)

def roleOf : Link → RouteRole
  | .main => .primary
  | .additional => .secondary

/-- Nothing outranks the claim, and at its rank no route comes before its own. -/
def Leading {α : Type*} [LinearOrder α] (claimed : RouteRole → α → Prop) (role : RouteRole)
    (a : α) : Prop :=
  claimed role a ∧ ∀ role' a', claimed role' a' → a' < a ∨ a' = a ∧ roleRank role ≤ roleRank role'

section
variable {α : Type*} [LinearOrder α] {claimed : RouteRole → α → Prop} {role role' : RouteRole}
  {a a' : α} (hl : Leading claimed role a)
include hl

theorem leading_le (h : claimed role' a') : a' ≤ a :=
  (hl.2 role' a' h).elim le_of_lt fun h => h.1.le

theorem leading_unique (hl' : Leading claimed role' a') : role = role' := by
  rcases hl.2 role' a' hl'.1 with hlt | ⟨heq, hle⟩
  · rcases hl'.2 role a hl.1 with hgt | ⟨heq, -⟩
    · exact (lt_asymm hlt hgt).elim
    · exact (hlt.ne' heq).elim
  · rcases hl'.2 role a hl.1 with hgt | ⟨-, hge⟩
    · exact (hgt.ne heq.symm).elim
    · cases role <;> cases role' <;> simp [roleRank] at hle hge ⊢

end

theorem carrier_leads {m a : Option NameClaim}
    (hm : Strongest {c | claimed .primary c} m) (ha : Strongest {c | claimed .secondary c} a)
    (hc : carrier m a = some (link, c)) :
    Leading claimed (roleOf link) c := by
  rcases carrier_some hc with ⟨rfl, rfl, hmax⟩ | ⟨rfl, rfl, hmax⟩
  · refine ⟨hm.1, fun role c' hclaim => ?_⟩
    have hle : c' ≤ c := by
      cases role with
      | primary => exact hm.2 hclaim
      | secondary =>
        obtain ⟨d, hd, hle⟩ := strongest_ge ha hclaim
        exact hle.trans (hmax d hd)
    exact hle.lt_or_eq.imp_right fun heq => ⟨heq, by simp [roleOf, roleRank]⟩
  · refine ⟨ha.1, fun role c' hclaim => ?_⟩
    cases role with
    | primary =>
      obtain ⟨d, hd, hle⟩ := strongest_ge hm hclaim
      exact Or.inl (lt_of_le_of_lt hle (hmax d hd))
    | secondary => exact (ha.2 hclaim).lt_or_eq.imp_right fun heq => ⟨heq, le_rfl⟩

theorem carrier_none {m a : Option NameClaim}
    (hm : Strongest {c | claimed .primary c} m) (ha : Strongest {c | claimed .secondary c} a)
    (hc : carrier m a = none) (role : RouteRole) (c : NameClaim) : ¬claimed role c := by
  intro hclaim
  obtain ⟨rfl, rfl⟩ := carrier_eq_none hc
  cases role with
  | primary =>
    obtain ⟨d, hd, -⟩ := strongest_ge hm hclaim
    cases hd
  | secondary =>
    obtain ⟨d, hd, -⟩ := strongest_ge ha hclaim
    cases hd

theorem carried_leads (iso : Isolated b cache h ip)
    (hc : carriedBy b cache support h = some (link, c)) :
    Leading (fun role c => NameClaimed (b.setFor role) h c) (roleOf link) c :=
  carrier_leads (name_claim_strongest iso .primary support)
    (name_claim_strongest iso .secondary support) hc

theorem carried_none (iso : Isolated b cache h ip) (hc : carriedBy b cache support h = none)
    (role : RouteRole) (c : NameClaim) : ¬NameClaimed (b.setFor role) h c :=
  @carrier_none (fun role c => NameClaimed (b.setFor role) h c) _ _
    (name_claim_strongest iso .primary support) (name_claim_strongest iso .secondary support)
    hc role c

def NetworkClaimed (support : RuleShapeSupport) (s : CanonicalRuleSet) (ip : IpAddr) (len : ℕ) :
    Prop :=
  ∃ net ∈ (routeRules s).flatMap (networksOf support), net.contains ip = true ∧ net.prefixLen = len

theorem longest_network {e : IpBlock × NetworkClaim}
    (hl : (networksOfBook b support).longest ip = some e) :
    Leading (fun role len => NetworkClaimed support (b.setFor role) ip len) (roleOf e.2.winner)
      e.1.prefixLen := by
  obtain ⟨hc, hn, hclaim, hmost⟩ := longest_some _ _ hl
  have hmem (role : RouteRole) (net : IpBlock)
      (h : net ∈ (routeRules (b.setFor role)).flatMap (networksOf support)) :
      net ∈ (routeRules b.primary).flatMap (networksOf support) ∨
        net ∈ (routeRules b.secondary).flatMap (networksOf support) := by
    cases role with
    | primary => exact Or.inl h
    | secondary => exact Or.inr h
  rw [hclaim]
  by_cases hm : e.1 ∈ (routeRules b.primary).flatMap (networksOf support)
  · simp only [NetworkClaim.winner, hm, decide_true, if_true]
    refine ⟨⟨e.1, hm, hc, rfl⟩, fun role len hlen => ?_⟩
    obtain ⟨net, hnet, hnc, rfl⟩ := hlen
    exact (hmost net (hmem role net hnet) hnc).lt_or_eq.imp_right fun heq =>
      ⟨heq, by simp [roleOf, roleRank]⟩
  · simp only [NetworkClaim.winner, hm, decide_false, Bool.false_eq_true, if_false]
    refine ⟨⟨e.1, hn.resolve_left hm, hc, rfl⟩, fun role len hlen => ?_⟩
    obtain ⟨net, hnet, hnc, rfl⟩ := hlen
    refine (hmost net (hmem role net hnet) hnc).lt_or_eq.imp_right fun heq => ⟨heq, ?_⟩
    -- a network of the same length at the same address is the same network
    obtain rfl := same_length_eq hnc hc heq
    cases role with
    | primary => exact (hm hnet).elim
    | secondary => exact le_rfl

theorem no_network (hl : (networksOfBook b support).longest ip = none) (role : RouteRole)
    (len : ℕ) : ¬NetworkClaimed support (b.setFor role) ip len := by
  intro hclaim
  obtain ⟨net, hnet, hc, -⟩ := hclaim
  have hnone := longest_none _ _ hl net
  cases role with
  | primary => simp [hnone (Or.inl hnet)] at hc
  | secondary => simp [hnone (Or.inr hnet)] at hc

inductive RouteClaim (b : CanonicalRuleBook) (support : RuleShapeSupport) (h : Text) (ip : IpAddr)
    (order : ZoneVsIpOrder) (role : RouteRole) : ClaimRank → Prop
  | name (c : NameClaim) : NameClaimed (b.setFor role) h c →
      RouteClaim b support h ip order role (hostRank c order)
  | literal : ip ∈ literals (b.setFor role) →
      RouteClaim b support h ip order role (literalRank order)
  | network (len : ℕ) : NetworkClaimed support (b.setFor role) ip len →
      RouteClaim b support h ip order role (subnetRank len order)

theorem subnet_below_literal (len : ℕ) (order : ZoneVsIpOrder) :
    subnetRank len order < literalRank order := by
  cases order <;> simp [subnetRank, literalRank, Prod.Lex.toLex_lt_toLex]

theorem subnet_rank_le {m n : ℕ} (hmn : m ≤ n) (order : ZoneVsIpOrder) :
    subnetRank m order ≤ subnetRank n order := by
  cases order <;> simpa [subnetRank, Prod.Lex.toLex_le_toLex] using hmn

theorem reads_first_above (hc : readsFirst order c = true) :
    literalRank order < hostRank c order := by
  cases order <;> cases c <;>
    simp [readsFirst, NameClaim.isZone] at hc <;>
    simp [literalRank, hostRank, Prod.Lex.toLex_lt_toLex]

theorem reads_last_below (hc : readsFirst order c = false) (len : ℕ) :
    hostRank c order < subnetRank len order := by
  cases order with
  | zoneFirst => simp [readsFirst] at hc
  | exactIpFirst =>
    cases c with
    | zone labels => simp [subnetRank, hostRank, Prod.Lex.toLex_lt_toLex]
    | suffix labels | siteZone labels | exactFqdn => simp [readsFirst, NameClaim.isZone] at hc

theorem literal_link_some (hl : literalLink b ip = some link) :
    ip ∈ literals (b.setFor (roleOf link)) := by
  unfold literalLink at hl
  split at hl
  · rename_i hm
    cases hl
    exact hm
  · split at hl
    · rename_i ha
      cases hl
      exact ha
    · simp at hl

theorem literal_link_none (hl : literalLink b ip = none) (role : RouteRole) :
    ip ∉ literals (b.setFor role) := by
  unfold literalLink at hl
  split at hl
  · simp at hl
  · split at hl
    · simp at hl
    · cases role with
      | primary | secondary => assumption

section
variable {support} (hdisj : ¬(ip ∈ literals b.primary ∧ ip ∈ literals b.secondary))
include hdisj

theorem tiered_owner_leads {named : Option (Link × NameClaim)}
    (hnamed : ∀ l c, named = some (l, c) →
      Leading (fun role c => NameClaimed (b.setFor role) h c) (roleOf l) c)
    (hnone : named = none → ∀ role c, ¬NameClaimed (b.setFor role) h c)
    (ho : tieredOwner order named (literalLink b ip) ((networksOfBook b support).winner ip) =
      some link) :
    ∃ rank, Leading (RouteClaim b support h ip order) (roleOf link) rank := by
  -- a name that reads last is below every literal and network
  have hlast (hclose : (named.filter fun e => readsFirst order e.2).map Prod.fst = none)
      {role : RouteRole} {c : NameClaim} (hc : NameClaimed (b.setFor role) h c) (len : ℕ) :
      hostRank c order < subnetRank len order := by
    cases named with
    | none => exact (hnone rfl role c hc).elim
    | some e =>
      have hle : c ≤ e.2 := leading_le (hnamed e.1 e.2 rfl) hc
      have hz : readsFirst order e.2 = false := by
        by_contra hne
        simp [Option.filter, Bool.eq_true_of_not_eq_false hne] at hclose
      exact lt_of_le_of_lt (host_rank_le hle) (reads_last_below hz len)
  have hname {l : Link} {c : NameClaim} (hl : Leading (fun role c => NameClaimed (b.setFor role) h c)
      (roleOf l) c) {role' : RouteRole} {c' : NameClaim} (hc' : NameClaimed (b.setFor role') h c') :
      hostRank c' order < hostRank c order ∨
        hostRank c' order = hostRank c order ∧ roleRank (roleOf l) ≤ roleRank role' :=
    (hl.2 role' c' hc').imp host_rank_lt_iff.mpr fun heq => ⟨by rw [heq.1], heq.2⟩
  rw [tieredOwner, Option.or_eq_some_iff, Option.or_eq_some_iff, Option.or_eq_some_iff] at ho
  rcases ho with hclose | ⟨hclose, hlit | ⟨hlit, hnet | ⟨hnet, hzone⟩⟩⟩
  · obtain ⟨e, he, rfl⟩ := Option.map_eq_some_iff.mp hclose
    obtain ⟨he, hfirst⟩ := Option.filter_eq_some_iff.mp he
    have hlead := hnamed e.1 e.2 he
    refine ⟨hostRank e.2 order, .name e.2 hlead.1, fun role' rank' hclaim => ?_⟩
    cases hclaim with
    | name c' hc' => exact hname hlead hc'
    | literal _ => exact Or.inl (reads_first_above hfirst)
    | network len _ =>
      exact Or.inl ((subnet_below_literal len order).trans (reads_first_above hfirst))
  · refine ⟨literalRank order, .literal (literal_link_some hlit), fun role' rank' hclaim => ?_⟩
    cases hclaim with
    | name c' hc' => exact Or.inl ((hlast hclose hc' 0).trans (subnet_below_literal 0 order))
    | literal hmem =>
      refine Or.inr ⟨rfl, ?_⟩
      have hown := literal_link_some hlit
      cases link with
      | main => simp [roleOf, roleRank]
      | additional =>
        cases role' with
        | primary => exact (hdisj ⟨hmem, hown⟩).elim
        | secondary => exact le_rfl
    | network len _ => exact Or.inl (subnet_below_literal len order)
  · obtain ⟨e, he, rfl⟩ := Option.map_eq_some_iff.mp hnet
    obtain ⟨e, hlong, rfl⟩ := Option.map_eq_some_iff.mp he
    have hlead := longest_network support hlong
    refine ⟨subnetRank e.1.prefixLen order, .network _ hlead.1, fun role' rank' hclaim => ?_⟩
    cases hclaim with
    | name c' hc' => exact Or.inl (hlast hclose hc' _)
    | literal hmem => exact (literal_link_none hlit role' hmem).elim
    | network len hlen =>
      rcases hlead.2 role' len hlen with hlt | ⟨rfl, hle⟩
      · refine Or.inl ?_
        cases order <;> simpa [subnetRank, Prod.Lex.toLex_lt_toLex] using hlt
      · exact Or.inr ⟨rfl, hle⟩
  · obtain ⟨e, he, rfl⟩ := Option.map_eq_some_iff.mp hzone
    have hlead := hnamed e.1 e.2 he
    refine ⟨hostRank e.2 order, .name e.2 hlead.1, fun role' rank' hclaim => ?_⟩
    simp only [NetworkClaims.winner, NetworkClaims.narrowest, Option.map_eq_none_iff] at hnet
    cases hclaim with
    | name c' hc' => exact hname hlead hc'
    | literal hmem => exact (literal_link_none hlit role' hmem).elim
    | network len hlen => exact (no_network support hnet role' len hlen).elim

theorem owner_leads (iso : Isolated b cache h ip)
    (ho : (resolveWithSupport b cache order support).ownerOf ip = some link) :
    ∃ rank, Leading (RouteClaim b support h ip order) (roleOf link) rank := by
  rw [owner_tiers support iso hdisj] at ho
  exact tiered_owner_leads hdisj (fun l c => carried_leads support iso)
    (carried_none support iso) ho

theorem owner_none (iso : Isolated b cache h ip)
    (ho : (resolveWithSupport b cache order support).ownerOf ip = none) (role : RouteRole)
    (rank : ClaimRank) : ¬RouteClaim b support h ip order role rank := by
  rw [owner_tiers support iso hdisj, tieredOwner, Option.or_eq_none_iff, Option.or_eq_none_iff,
    Option.or_eq_none_iff] at ho
  obtain ⟨-, hlit, hnet, hname⟩ := ho
  rw [Option.map_eq_none_iff] at hname
  simp only [NetworkClaims.winner, NetworkClaims.narrowest, Option.map_eq_none_iff] at hnet
  intro hclaim
  cases hclaim with
  | name c hc => exact carried_none support iso hname role c hc
  | literal hmem => exact literal_link_none hlit role hmem
  | network len hlen => exact no_network support hnet role len hlen

end

theorem mem_route_entries {rank : ClaimRank} :
    (ip, rank) ∈ routeEntries cache (nameClaims b.primary cache support)
        (nameClaims b.secondary cache support) order ↔
      (∃ role, ip ∈ literals (b.setFor role)) ∧ literalRank order = rank ∨
        ∃ host e, (carriedBy b cache support host = some e ∧ ip ∈ cappedForHost cache host .both) ∧
          hostRank e.2 order = rank := by
  have hroles : (∃ role, ip ∈ literals (b.setFor role)) ↔
      ip ∈ (nameClaims b.primary cache support).literal ∨
        ip ∈ (nameClaims b.secondary cache support).literal := exists_role
  rw [routeEntries, List.mem_append, hroles]
  refine or_congr (by simp) ?_
  rw [List.mem_flatMap]
  constructor
  · intro hmem
    obtain ⟨host, -, hin⟩ := hmem
    cases hc : carried (nameClaims b.primary cache support)
        (nameClaims b.secondary cache support) host with
    | none => simp [hc] at hin
    | some e =>
      simp only [hc, List.mem_map, Prod.mk.injEq] at hin
      obtain ⟨a, ha, rfl, rfl⟩ := hin
      exact ⟨host, e, ⟨hc, ha⟩, rfl⟩
  · intro hcarried
    obtain ⟨host, e, ⟨hc, hip⟩, rfl⟩ := hcarried
    refine ⟨host, (carried_named support hc).1, ?_⟩
    rw [carriedBy] at hc
    simpa [hc] using hip

theorem network_outranks_iff (own : ClaimRank) :
    ((networksOfBook b support).longest ip).any
        (fun e => decide (own < subnetRank e.1.prefixLen order)) = true ↔
      ∃ role len, NetworkClaimed support (b.setFor role) ip len ∧ own < subnetRank len order := by
  cases hl : (networksOfBook b support).longest ip with
  | none => simp [no_network support hl]
  | some e =>
    have hlead := longest_network support hl
    simp only [Option.any_some, decide_eq_true_eq]
    constructor
    · intro hlt
      exact ⟨_, _, hlead.1, hlt⟩
    · intro hex
      obtain ⟨role, len, hlen, hlt⟩ := hex
      exact lt_of_lt_of_le hlt (subnet_rank_le (leading_le hlead hlen) order)

theorem strongest_any_lt {α : Type*} [LinearOrder α] {s : Set α} {o : Option α}
    (ho : Strongest s o) (own : α) : o.any (own < ·) = true ↔ ∃ a ∈ s, own < a := by
  cases o with
  | none => simp [show s = ∅ from ho]
  | some a =>
    simp only [Option.any_some, decide_eq_true_eq]
    constructor
    · intro hlt
      exact ⟨a, ho.1, hlt⟩
    · intro hex
      obtain ⟨a', ha', hlt⟩ := hex
      exact lt_of_lt_of_le hlt (ho.2 ha')

theorem outranked_iff (iso : Isolated b cache h ip) (own : ClaimRank) :
    (resolveWithSupport b cache order support).outranked ip own = true ↔
      ∃ role rank, RouteClaim b support h ip order role rank ∧ own < rank := by
  have hroute := strongest_any_lt (raise_all_strongest (routeEntries cache
    (nameClaims b.primary cache support) (nameClaims b.secondary cache support) order) ip) own
  simp only [Set.mem_ofPred_eq, mem_route_entries, carried_at_address support iso] at hroute
  rw [AddressOwnership.outranked, Bool.or_eq_true]
  refine (or_congr hroute (network_outranks_iff support own)).trans ⟨fun hout => ?_, fun hclaim => ?_⟩
  · rcases hout with ⟨rank, ⟨⟨role, hmem⟩, rfl⟩ | ⟨_, e, ⟨-, he⟩, rfl⟩, hlt⟩ |
      ⟨role, len, hlen, hlt⟩
    · exact ⟨role, _, .literal hmem, hlt⟩
    · exact ⟨roleOf e.1, _, .name e.2 (carried_leads support iso he).1, hlt⟩
    · exact ⟨role, _, .network len hlen, hlt⟩
  · obtain ⟨role, rank, hclaim, hlt⟩ := hclaim
    cases hclaim with
    | literal hmem => exact Or.inl ⟨_, Or.inl ⟨⟨role, hmem⟩, rfl⟩, hlt⟩
    | network len hlen => exact Or.inr ⟨role, len, hlen, hlt⟩
    | name c hc =>
      cases he : carriedBy b cache support h with
      | none => exact (carried_none support iso he role c hc).elim
      | some e =>
        have hle : c ≤ e.2 := leading_le (carried_leads support iso he) hc
        exact Or.inl ⟨_, Or.inr ⟨h, e, ⟨rfl, rfl⟩, rfl⟩, lt_of_lt_of_le hlt (host_rank_le hle)⟩

end

end NetRuleRouter.OwnerTiers
