import NetRuleRouter.MatchOptimum
import NetRuleRouter.Arbiter
import NetRuleRouter.RangeBlocks

/-!
# The engine's decision as a contest of ranks

For a connection to a host at an address, of no known application, every
claim of the engine gets a place in the arbiter's scale of ranks. A claim of
the highest rank decides: a Block before a route, the main route before the
additional one. A Block of the very address stands above the scale.
-/

set_option autoImplicit false

namespace NetRuleRouter.TierRanks
open TextOps IpNetwork
open HostMatching Canonical RuleMatching
open RuleSelection Contenders MatchOptimum
open Bisection RangeBlocks
open Arbiter hiding labelCount zoneClaim

def policyOf (order : ZoneVsIpOrder) : ZonePriorityPolicy := ⟨order == .exactIpFirst⟩

def tierWeight : ZoneVsIpOrder → MatchClass → ℕ
  | _, .exactFqdn => 4
  | _, .suffixDomain => 3
  | .exactIpFirst, .exactIp => 2
  | .exactIpFirst, .subnet => 1
  | .exactIpFirst, .zone => 0
  | .zoneFirst, .zone => 2
  | .zoneFirst, .exactIp => 1
  | .zoneFirst, .subnet => 0
  | _, .application => 0

def tierScore (tag : MatchClass) (c : RuleMatchCandidate) : ℕ :=
  match tag with
  | .suffixDomain => 2 * c.specificity + (1 - apexRank c.matchClass)
  | .zone | .subnet => c.specificity
  | _ => 0

def rankIn (order : ZoneVsIpOrder) (tag : MatchClass) (c : RuleMatchCandidate) : ClaimRank :=
  toLex (tierWeight order tag, tierScore tag c)

/-- Between claims of one rank a Block comes first, then the main route. -/
def Precedes (role : RouteRole) (action : RuleAction) (role' : RouteRole) (action' : RuleAction) :
    Prop :=
  actionRank action < actionRank action' ∨
    actionRank action = actionRank action' ∧ roleRank role ≤ roleRank role'

def NoApps (b : CanonicalRuleBook) : Prop :=
  ∀ role, ∀ r ∈ (b.setFor role).rules, r.enabled = true → r.appMatch = none

def NoAnyZone (b : CanonicalRuleBook) : Prop :=
  ∀ role, ∀ r ∈ (b.setFor role).rules, r.enabled = true →
    ∀ base, r.addressMatch ≠ some (.anyZoneDomain base)

def LiteralBlock (b : CanonicalRuleBook) (ip : IpAddr) : Prop :=
  ∃ role, ∃ r ∈ (b.setFor role).rules, r.enabled = true ∧ r.action = .block ∧
    r.addressMatch = some (.exactIp ip)

/-- The rank of the claim a rule of a set makes on the connection. A zone of several labels makes
none beside the suffix rule of its own name. -/
inductive RuleRank (b : CanonicalRuleBook) (h : Text) (ip : IpAddr) (order : ZoneVsIpOrder)
    (role : RouteRole) (r : CanonicalRule) : ClaimRank → Prop
  | exactFqdn : r.addressMatch = some (.exactFqdn h) →
      RuleRank b h ip order role r (hostRank .exactFqdn order)
  | suffix (label : Text) : r.addressMatch = some (.suffixDomain label) →
      matchSuffixDomain h label = true →
      RuleRank b h ip order role r (hostRank (.suffix (labelCount label)) order)
  | siteZone (name : Text) : r.addressMatch = some (.zone name) →
      zoneRanksAsSuffix name = true → matchZone h name = true →
      (b.setFor role).holdsSuffix name r.appMatch = false →
      RuleRank b h ip order role r (hostRank (.siteZone (labelCount name)) order)
  | zone (name : Text) : r.addressMatch = some (.zone name) →
      zoneRanksAsSuffix name = false → matchZone h name = true →
      RuleRank b h ip order role r (hostRank (.zone (labelCount name)) order)
  | literal : r.addressMatch = some (.exactIp ip) →
      RuleRank b h ip order role r (literalRank order)
  | network (net : IpBlock) : net ∈ (r.addressMatch.bind CanonicalAddressMatch.ipBlocks).getD [] →
      net.contains ip = true → RuleRank b h ip order role r (subnetRank net.prefixLen order)

def Contends (b : CanonicalRuleBook) (h : Text) (ip : IpAddr) (order : ZoneVsIpOrder)
    (role : RouteRole) (action : RuleAction) (rank : ClaimRank) : Prop :=
  ∃ r ∈ (b.setFor role).rules, r.enabled = true ∧ r.action = action ∧
    RuleRank b h ip order role r rank

theorem holding_block_iff {m : Option CanonicalAddressMatch} {ip : IpAddr} {net : IpBlock} :
    (m.bind CanonicalAddressMatch.ipBlocks).bind (List.find? fun block => block.contains ip) =
        some net ↔
      net ∈ (m.bind CanonicalAddressMatch.ipBlocks).getD [] ∧ net.contains ip = true := by
  have hlist (blocks : List IpBlock)
      (hdis : blocks.Pairwise fun b c => b.contains ip = true → c.contains ip = false) :
      blocks.find? (fun block => block.contains ip) = some net ↔
        net ∈ blocks ∧ net.contains ip = true := by
    constructor
    · intro hfind
      have hholds := @List.find?_some _ (fun block : IpBlock => block.contains ip) _ _ hfind
      exact ⟨List.mem_of_find?_eq_some hfind, hholds⟩
    · intro hnet
      obtain ⟨before, after, rfl⟩ := List.append_of_mem hnet.1
      refine List.find?_eq_some_iff_append.mpr ⟨hnet.2, before, after, rfl, ?_⟩
      intro a ha
      have hpair := (List.pairwise_append.mp hdis).2.2 a ha net (by simp)
      cases hc : a.contains ip with
      | false => rfl
      | true => simp [hpair hc] at hnet
  rcases m with _ | (_ | _ | _ | _ | _ | block | range)
  case some.subnet => exact hlist [block] (by simp)
  case some.ipRange => exact hlist range.blocks ((range_blocks_ordered range).imp ends_before_disjoint)
  all_goals simp [CanonicalAddressMatch.ipBlocks]

section
variable {b : CanonicalRuleBook} {h : Text} {ip : IpAddr} {order : ZoneVsIpOrder}

theorem ips_connection : effectiveIpsForMatching (connection (some h) (some ip)) ⟨none⟩ = [ip] := by
  simp [effectiveIpsForMatching, observedIp, connection]

theorem rank_in_eq (order : ZoneVsIpOrder) (c : RuleMatchCandidate) :
    rankIn order .exactFqdn c = hostRank .exactFqdn order ∧
      rankIn order .suffixDomain c =
        toLex (3, 2 * c.specificity + (1 - apexRank c.matchClass)) ∧
      rankIn order .zone c = hostRank (.zone c.specificity) order ∧
      rankIn order .exactIp c = literalRank order ∧
      rankIn order .subnet c = subnetRank c.specificity order := by
  cases order <;> exact ⟨rfl, rfl, rfl, rfl, rfl⟩

section
variable {tier : MatchClass} {c : RuleMatchCandidate} {tier' : MatchClass}

theorem contender_contends (hany : NoAnyZone b) (order : ZoneVsIpOrder)
    (hc : Contender (connection (some h) (some ip)) ⟨none⟩ b tier c) :
    Contends b h ip order c.routeRole c.action (rankIn order tier c) := by
  obtain ⟨role, r, hr, he, -, p, hp, rfl⟩ := hc
  refine ⟨r, hr, he, rfl, ?_⟩
  obtain ⟨hexact, hsuffix, hzone, hliteral, hsubnet⟩ :=
    rank_in_eq order (makeCandidate r role (evalAppFilter r none) p)
  have hhost {host : Text} (hv : (connection (some h) (some ip)).hostname = .valid host) :
      h = host := NormalizedHostname.valid.inj hv
  have hip {a : IpAddr} (ha : a ∈ effectiveIpsForMatching (connection (some h) (some ip)) ⟨none⟩) :
      a = ip := by rwa [ips_connection, List.mem_singleton] at ha
  cases hp with
  | exactFqdn host _ hv ha =>
    obtain rfl := hhost hv
    exact hexact ▸ .exactFqdn ha
  | suffixDomain host label _ hv ha hm =>
    obtain rfl := hhost hv
    exact hsuffix ▸ .suffix label ha hm
  | siteZone host name _ hv ha hs hm hh =>
    obtain rfl := hhost hv
    exact hsuffix ▸ .siteZone name ha hs hm hh
  | anyZone host base named _ hv ha => exact (hany role r hr he base ha).elim
  | zone host name _ hv ha hs hm =>
    obtain rfl := hhost hv
    exact hzone ▸ .zone name ha hs hm
  | exactIp a _ ha haddr =>
    obtain rfl := hip ha
    exact hliteral ▸ .literal haddr
  | subnet a net _ ha hnet =>
    obtain rfl := hip ha
    obtain ⟨hmem, hholds⟩ := holding_block_iff.mp hnet
    exact hsubnet ▸ .network net hmem hholds
  | application identity app s _ hi => cases hi

theorem contends_contender (hna : NoApps b) {role : RouteRole} {action : RuleAction}
    {rank : ClaimRank} (hc : Contends b h ip order role action rank) :
    ∃ tier c, Contender (connection (some h) (some ip)) ⟨none⟩ b tier c ∧
      c.routeRole = role ∧ c.action = action ∧ rankIn order tier c = rank := by
  obtain ⟨r, hr, he, rfl, hrank⟩ := hc
  have hin (tier : MatchClass) (p : MatchClass × ℕ)
      (hp : Names (connection (some h) (some ip)) ⟨none⟩ b role r tier p)
      (heq : rankIn order tier (makeCandidate r role (evalAppFilter r none) p) = rank) :
      ∃ tier c, Contender (connection (some h) (some ip)) ⟨none⟩ b tier c ∧
        c.routeRole = role ∧ c.action = r.action ∧ rankIn order tier c = rank := by
    refine ⟨tier, _, ⟨role, r, hr, he, ?_, p, hp, rfl⟩, rfl, rfl, heq⟩
    simp [evalAppFilter, hna role r hr he, AppFilterResult.isEligible]
  have heq (p : MatchClass × ℕ) :=
    rank_in_eq order (makeCandidate r role (evalAppFilter r none) p)
  have hip : ip ∈ effectiveIpsForMatching (connection (some h) (some ip)) ⟨none⟩ := by
    rw [ips_connection, List.mem_singleton]
  cases hrank with
  | exactFqdn ha => exact hin _ _ (.exactFqdn h rfl rfl ha) (heq _).1
  | suffix label ha hm => exact hin _ _ (.suffixDomain h label rfl rfl ha hm) (heq _).2.1
  | siteZone name ha hs hm hh => exact hin _ _ (.siteZone h name rfl rfl ha hs hm hh) (heq _).2.1
  | zone name ha hs hm => exact hin _ _ (.zone h name rfl rfl ha hs hm) (heq _).2.2.1
  | literal ha => exact hin _ _ (.exactIp ip rfl hip ha) (heq _).2.2.2.1
  | network net hmem hc =>
    exact hin _ _ (.subnet ip net rfl hip (holding_block_iff.mpr ⟨hmem, hc⟩)) (heq _).2.2.2.2

theorem contender_uniform (hc : Contender (connection (some h) (some ip)) ⟨none⟩ b tier c) :
    tier ≠ .application ∧ (tier ≠ .suffixDomain → c.matchClass = tier) ∧
      (tier = .exactFqdn → c.specificity = labelCount h) ∧
      (tier = .exactIp → c.specificity = 1) := by
  obtain ⟨role, r, -, -, -, p, hp, rfl⟩ := hc
  cases hp with
  | exactFqdn host _ hv ha =>
    obtain rfl : h = host := NormalizedHostname.valid.inj hv
    simp [makeCandidate]
  | application identity app s _ hi => cases hi
  | _ => simp [makeCandidate]

theorem weight_of_place (ht : tier ≠ .application) (ht' : tier' ≠ .application)
    (hplace : tierPlace (policyOf order) tier < tierPlace (policyOf order) tier') :
    tierWeight order tier' < tierWeight order tier := by
  revert ht ht' hplace
  cases order <;> cases tier <;> cases tier' <;> decide

theorem before_rank {c' : RuleMatchCandidate}
    (hc : Contender (connection (some h) (some ip)) ⟨none⟩ b tier c)
    (hc' : Contender (connection (some h) (some ip)) ⟨none⟩ b tier' c')
    (hb : Before (policyOf order) tier tier' c c') :
    rankIn order tier' c' < rankIn order tier c ∨ rankIn order tier' c' = rankIn order tier c ∧
      Precedes c.routeRole c.action c'.routeRole c'.action := by
  have hapex (k : MatchClass) : apexRank k ≤ 1 := by cases k <;> simp [apexRank]
  have hac := hapex c.matchClass
  have hac' := hapex c'.matchClass
  obtain ⟨happ, hcc, hcf, hci⟩ := contender_uniform hc
  obtain ⟨happ', hcc', hcf', hci'⟩ := contender_uniform hc'
  simp only [rankIn, Prod.Lex.toLex_lt_toLex, EmbeddingLike.apply_eq_iff_eq, Prod.mk.injEq]
  rcases hb with hplace | ⟨rfl, hb⟩
  · exact Or.inl (Or.inl (weight_of_place happ happ' hplace))
  · have hle : c'.specificity < c.specificity ∨ c'.specificity = c.specificity ∧
        (apexRank c.matchClass < apexRank c'.matchClass ∨
          apexRank c.matchClass = apexRank c'.matchClass ∧
            Precedes c.routeRole c.action c'.routeRole c'.action) := by
      refine hb.imp_right fun h => ⟨h.1, h.2.imp_right fun h => ⟨h.1, h.2.imp_right fun h => ?_⟩⟩
      exact ⟨h.1, h.2.elim le_of_lt fun h => h.1.le⟩
    unfold Precedes at hle ⊢
    cases tier with
    | application => exact absurd rfl happ
    | suffixDomain =>
      simp only [tierScore, true_and]
      omega
    | exactFqdn =>
      rw [hcc (by simp), hcc' (by simp), hcf rfl, hcf' rfl] at hle
      simp only [tierScore, true_and]
      omega
    | exactIp =>
      rw [hcc (by simp), hcc' (by simp), hci rfl, hci' rfl] at hle
      simp only [tierScore, true_and]
      omega
    | zone | subnet =>
      rw [hcc (by simp), hcc' (by simp)] at hle
      simp only [tierScore, true_and]
      omega

end

theorem literal_block_vetoes (hna : NoApps b) :
    Vetoed (connection (some h) (some ip)) ⟨none⟩ b .exactIp ↔ LiteralBlock b ip := by
  constructor
  · intro hveto
    obtain ⟨c, ⟨role, r, hr, he, -, p, hp, rfl⟩, hact⟩ := hveto
    cases hp with
    | exactIp a _ ha haddr =>
      rw [ips_connection, List.mem_singleton] at ha
      exact ⟨role, r, hr, he, hact, ha ▸ haddr⟩
  · intro hlit
    obtain ⟨role, r, hr, he, hact, haddr⟩ := hlit
    refine ⟨_, ⟨role, r, hr, he, ?_, _, .exactIp ip rfl ?_ haddr, rfl⟩, hact⟩
    · simp [evalAppFilter, hna role r hr he, AppFilterResult.isEligible]
    · rw [ips_connection, List.mem_singleton]

theorem engine_leader (hna : NoApps b) (hany : NoAnyZone b) (hlit : ¬LiteralBlock b ip)
    (mode : RouteBehaviorMode) {o : RouteRole × RuleAction}
    (hout : (matchRules (connection (some h) (some ip)) ⟨none⟩ b (policyOf order) mode).outcome =
      some o) :
    ∃ rank, Contends b h ip order o.1 o.2 rank ∧
      ∀ role' action' rank', Contends b h ip order role' action' rank' →
        rank' < rank ∨ rank' = rank ∧ Precedes o.1 o.2 role' action' := by
  rw [outcome_eq, Option.map_eq_some_iff] at hout
  obtain ⟨w, hw, rfl⟩ := hout
  have happ : ¬Vetoed (connection (some h) (some ip)) ⟨none⟩ b .application :=
    fun ⟨_, hc, _⟩ => (contender_uniform hc).1 rfl
  have hall := in_play_all (mt (literal_block_vetoes hna).mp hlit) happ
  obtain ⟨tier, c, hc, hbefore, hwc, -⟩ :=
    chosen_congr (fun t c => (hall t c).symm) (passes_chosen hw)
  rw [hwc]
  refine ⟨rankIn order tier c, contender_contends hany order hc, ?_⟩
  intro role' action' rank' hcont
  obtain ⟨tier', c', hc', rfl, rfl, rfl⟩ := contends_contender hna hcont
  exact before_rank hc hc' (hbefore tier' c' hc')

theorem engine_literal_block (hna : NoApps b) (hlit : LiteralBlock b ip)
    (mode : RouteBehaviorMode) :
    ∃ role, (matchRules (connection (some h) (some ip)) ⟨none⟩ b (policyOf order) mode).outcome =
      some (role, .block) := by
  have hveto := (@literal_block_vetoes b h ip hna).mpr hlit
  rw [outcome_eq]
  cases hw : (tiers (connection (some h) (some ip)) ⟨none⟩ b (policyOf order)).findSome?
      selectWinner with
  | none =>
    obtain ⟨c, hc, -⟩ := hveto
    exact (passes_none.mp hw _ c hc).elim
  | some w =>
    obtain ⟨tier, c, ⟨-, hblock, -⟩, -, hwc, -⟩ := passes_chosen hw
    exact ⟨c.routeRole, by rw [hwc, ← (hblock hveto).2]; rfl⟩

theorem engine_default (hna : NoApps b) (mode : RouteBehaviorMode)
    (hout : (matchRules (connection (some h) (some ip)) ⟨none⟩ b (policyOf order) mode).outcome =
      none) :
    ∀ role action rank, ¬Contends b h ip order role action rank := by
  intro role action rank hcont
  obtain ⟨tier, c, hc, -⟩ := contends_contender hna hcont
  rw [outcome_eq, Option.map_eq_none_iff] at hout
  exact passes_none.mp hout tier c hc

end

end NetRuleRouter.TierRanks
