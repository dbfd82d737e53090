import NetRuleRouter.Projection
import NetRuleRouter.Contenders
import NetRuleRouter.CanonicalOrder

/-!
# Expanding rules for a site in any zone

At a host under one of its sites, a rule for any zone and the suffix twin of
that site make the same claim. But a zone of several labels yields to the twin
of its name in its own set, and the twins of two rules are told apart by ids
that carry the site. The decision survives the expansion exactly when the
first claim before and the first one left agree.
-/

set_option autoImplicit false

namespace NetRuleRouter.SiteExpansion
open TextOps Sorting HostMatching Canonical CanonicalOrder RuleMatching RuleSelection Contenders
  Projection

/-- A rule of a set, with the class and the number of labels it names the host by. -/
structure Claimant where
  role : RouteRole
  rule : CanonicalRule
  named : MatchClass × ℕ

/-- More labels first, then the zone, the Block, the main route, the id and the place in the set. -/
def claimOrder : Claimant → Claimant → Ordering :=
  compareLex (fun x y => compare y.named.2 x.named.2) <|
  compareLex (compareOn fun x => apexRank x.named.1) <|
  compareLex (compareOn fun x => actionRank x.rule.action) <|
  compareLex (compareOn fun x => roleRank x.role) <|
  compareLex (compareOn fun x => x.rule.id) (Ordering.byKey Claimant.rule canonicalOrder)

section
variable (input : NormalizedDecisionInput) (lookup : LookupResult) (b : CanonicalRuleBook)

/-- An enabled rule, for an application its filter accepts, that names the host by a suffix, a zone
of several labels or its site. -/
structure Claims (x : Claimant) : Prop where
  held : x.rule ∈ (b.setFor x.role).rules
  enabled : x.rule.enabled = true
  accepts : (evalAppFilter x.rule input.appIdentity).isEligible = true
  names : Names input lookup b x.role x.rule .suffixDomain x.named

/-- A Block of the address or the application, or a rule of the host's own name. -/
def DecidedBefore : Prop :=
  ∃ c, Contender input lookup b .exactFqdn c ∨
    (Contender input lookup b .exactIp c ∨ Contender input lookup b .application c) ∧
      c.action = .block

end

/-- An enabled rule for any zone of this set and application is reported at the site `name`, and
no rule names that suffix outright. -/
def TwinHeld (b : CanonicalRuleBook) (sites : Text → List Text) (role : RouteRole) (name : Text)
    (app : Option CanonicalAppMatch) : Prop :=
  b.namesSuffixOutright name = false ∧
    ∃ r ∈ (b.setFor role).rules, r.enabled = true ∧ r.appMatch = app ∧
      ∃ base, r.addressMatch = some (.anyZoneDomain base) ∧ name ∈ sites base

/-- The rule is a zone that a twin of its own set switches off. -/
def SwitchedOff (b : CanonicalRuleBook) (sites : Text → List Text) (x : Claimant) : Prop :=
  ∃ name, x.rule.addressMatch = some (.zone name) ∧ TwinHeld b sites x.role name x.rule.appMatch

/-- The rule that stands for `r` at the host once its sites are spelled out. -/
def atSite (h : Text) (r : CanonicalRule) : CanonicalRule :=
  match r.addressMatch with
  | some (.anyZoneDomain base) => ((matchAnyZoneDomain h base).map (siteTwin r)).getD r
  | _ => r

/-- What the expansion leaves of the claims: all but the switched-off zones, each under the id of
the rule that then makes it. -/
def Left (input : NormalizedDecisionInput) (lookup : LookupResult) (b : CanonicalRuleBook)
    (sites : Text → List Text) (h : Text) (x : Claimant) : Prop :=
  ∃ y, Claims input lookup b y ∧ ¬ SwitchedOff b sites y ∧ x = { y with rule := atSite h y.rule }

def First (P : Claimant → Prop) (x : Claimant) : Prop := P x ∧ ∀ y, P y → InOrder claimOrder x y

/-- The tier is never reached, or the first claim and the first one left have one route and one
action. -/
def ZonesStand (b : CanonicalRuleBook) (sites : Text → List Text) (h : Text)
    (input : NormalizedDecisionInput) (lookup : LookupResult) : Prop :=
  DecidedBefore input lookup b ∨
    ∀ x y, First (Claims input lookup b) x → First (Left input lookup b sites h) y →
      x.role = y.role ∧ x.rule.action = y.rule.action

/-- The sites function reports, for every enabled rule for any zone, the site of `h` it covers,
and only names of its base in their own zone. -/
structure SitesReported (b : CanonicalRuleBook) (sites : Text → List Text) (h : Text) :
    Prop where
  covers : ∀ r ∈ b.allRules, r.enabled = true → ∀ base,
    r.addressMatch = some (.anyZoneDomain base) → ∀ n, matchAnyZoneDomain h base = some n →
      n ∈ sites base
  spelled : ∀ r ∈ b.allRules, r.enabled = true → ∀ base,
    r.addressMatch = some (.anyZoneDomain base) → ∀ n ∈ sites base,
      ∃ zone, n = base ++ '.' :: zone ∧ siteZone n = some zone

section
variable {input : NormalizedDecisionInput} {lookup : LookupResult} {b : CanonicalRuleBook}
  {x y : Claimant}

instance : Std.TransCmp claimOrder := by
  have : Std.TransCmp fun x y : Claimant => compare y.named.2 x.named.2 :=
    @Std.TransCmp.opposite _ (compareOn fun x : Claimant => x.named.2) _
  unfold claimOrder
  infer_instance

theorem first_unique {P : Claimant → Prop} (hx : First P x) (hy : First P y) :
    x.role = y.role ∧ x.rule.action = y.rule.action := by
  have htie := in_order_antisymm claimOrder (hx.2 y hy.1) (hy.2 x hx.1)
  simp only [claimOrder, compareLex_eq_eq, compareOn, Nat.compare_eq_eq] at htie
  obtain ⟨-, -, -, hrole, -, hrule⟩ := htie
  refine ⟨?_, (canonical_order_eq hrule).action⟩
  revert hrole
  cases x.role <;> cases y.role <;> simp [roleRank]

def bookRules (b : CanonicalRuleBook) : List (RouteRole × CanonicalRule) :=
  [RouteRole.primary, .secondary].flatMap fun role => (b.setFor role).rules.map (Prod.mk role)

def placeOrder : RouteRole × CanonicalRule → RouteRole × CanonicalRule → Ordering :=
  compareLex (compareOn fun x => roleRank x.1) (Ordering.byKey Prod.snd canonicalOrder)

instance : Std.TransCmp placeOrder := by
  unfold placeOrder
  infer_instance

theorem book_rules_sorted (b : CanonicalRuleBook) : Sorted placeOrder (bookRules b) := by
  have hset (role : RouteRole) : Sorted placeOrder ((b.setFor role).rules.map (Prod.mk role)) :=
    List.pairwise_map.mpr ((b.setFor role).sorted.imp fun h => by
      simpa [InOrder, placeOrder, compareLex, compareOn, Ordering.byKey] using h)
  rw [bookRules, List.flatMap_cons, List.flatMap_singleton]
  refine List.pairwise_append.mpr ⟨hset _, hset _, fun x hx y hy => ?_⟩
  obtain ⟨r, -, rfl⟩ := List.mem_map.mp hx
  obtain ⟨q, -, rfl⟩ := List.mem_map.mp hy
  rfl

theorem mem_book_rules {role : RouteRole} {r : CanonicalRule} :
    (role, r) ∈ bookRules b ↔ r ∈ (b.setFor role).rules := by
  cases role <;> simp [bookRules]

theorem eligible_collect (filter : CanonicalRule → AppFilterResult)
    (claim : RouteRole → CanonicalRule → Option (MatchClass × ℕ)) :
    eligible (collect b filter claim) = (bookRules b).filterMap fun x =>
      if x.2.enabled && (filter x.2).isEligible then
        (claim x.1 x.2).map (makeCandidate x.2 x.1 (filter x.2))
      else none := by
  rw [eligible, collect, bookRules, List.filter_flatMap, List.filterMap_flatMap]
  congr 1
  funext role
  rw [List.filterMap_filter, List.filter_filterMap, List.filterMap_map]
  refine List.filterMap_congr fun r _ => ?_
  cases hclaim : claim role r <;> cases he : r.enabled <;> cases hf : (filter r).isEligible <;>
    simp [hclaim, he, hf, makeCandidate]

theorem claim_order_eq : claimOrder x y =
    (candidateOrder (makeCandidate x.rule x.role (evalAppFilter x.rule input.appIdentity) x.named)
      (makeCandidate y.rule y.role (evalAppFilter y.rule input.appIdentity) y.named)).then
      (placeOrder (x.role, x.rule) (y.role, y.rule)) := by
  simp only [claimOrder, candidateOrder, standingOrder, placeOrder, compareLex, compareOn,
    makeCandidate, Ordering.byKey, Ordering.then_assoc]
  cases compare (roleRank x.role) (roleRank y.role) <;> rfl

theorem exists_first (hne : eligible (suffixTier input b) ≠ [])
    (ts : List (List RuleMatchCandidate)) :
    ∃ x, First (Claims input lookup b) x ∧
      decided (suffixTier input b :: ts) = some (x.role, x.rule.action) := by
  obtain ⟨c, hc⟩ := List.exists_mem_of_ne_nil _ hne
  obtain ⟨host, hopen, -⟩ := mem_eligible_hostname.mp hc
  have htier : suffixTier input b = collectSuffixDomain b input.appIdentity host := by
    simp [suffixTier, overHostname, hopen]
  rw [htier, collectSuffixDomain] at hne ⊢
  cases hbest : best candidateOrder (eligible (collect b (evalAppFilter · input.appIdentity)
      (suffixDomainClaim b host))) with
  | none => exact (hne ((best_eq_none candidateOrder).mp hbest)).elim
  | some w =>
    have hdecided : decided (collect b (evalAppFilter · input.appIdentity)
        (suffixDomainClaim b host) :: ts) = some (decides w) := by
      simp [decided, firstBest, hbest]
    rw [eligible_collect] at hbest
    obtain ⟨⟨role, r⟩, hr, hw, hlead⟩ := best_filter_map (book_rules_sorted b) hbest
    simp only [Option.ite_none_right_eq_some, Bool.and_eq_true, Option.map_eq_some_iff] at hw
    obtain ⟨⟨he, hel⟩, p, hp, rfl⟩ := hw
    have hnames : Names input lookup b role r .suffixDomain p :=
      names_suffix_claim.mpr ⟨host, hopen, hp⟩
    refine ⟨⟨role, r, p⟩, ⟨⟨mem_book_rules.mp hr, he, hel, hnames⟩, fun y hy => ?_⟩, hdecided⟩
    obtain ⟨host', hopen', hclaim⟩ := names_suffix_claim.mp hy.names
    obtain rfl : host = host' := by simpa using hopen.2.symm.trans hopen'.2
    rw [InOrder, claim_order_eq]
    exact hlead (y.role, y.rule) (mem_book_rules.mpr hy.held) _
      (by simp [hy.enabled, hy.accepts, hclaim])

theorem claims_nonempty :
    (∃ x, Claims input lookup b x) ↔ eligible (suffixTier input b) ≠ [] := by
  constructor
  · rintro ⟨x, hr, he, hel, hnames⟩
    have hmem : Contender input lookup b .suffixDomain _ :=
      ⟨x.role, x.rule, hr, he, hel, x.named, hnames, rfl⟩
    exact List.ne_nil_of_mem (mem_tier_list.mpr hmem)
  · intro hne
    obtain ⟨x, hx, -⟩ := exists_first hne []
    exact ⟨x, hx.1⟩

theorem decided_before_iff {policy : ZonePriorityPolicy} :
    decided (tiersBefore input lookup b policy) ≠ none ↔ DecidedBefore input lookup b := by
  have hround (round : Bool × MatchClass) : ¬ eligible (roundOf input lookup b round) = [] ↔
      ∃ c, Contender input lookup b round.2 c ∧ (round.1 = true → c.action = .block) := by
    simp only [List.eq_nil_iff_forall_not_mem, mem_round, not_forall, not_not]
  have htiers : tiersBefore input lookup b policy = [(true, .exactIp), (true, .application),
    (false, .exactFqdn)].map (roundOf input lookup b) := rfl
  rw [ne_eq, decided_none, htiers, List.forall_mem_map, DecidedBefore]
  simp only [List.forall_mem_cons, List.not_mem_nil, false_implies, implies_true, and_true,
    not_and_or, hround, exists_or, or_and_right]
  simp only [true_implies, Bool.false_eq_true, false_implies, and_true]
  rw [← or_assoc, or_comm]

end

section
variable {role : RouteRole} {r : CanonicalRule} {b : CanonicalRuleBook} {sites : Text → List Text}

theorem holds_suffix_sites {name : Text} {app : Option CanonicalAppMatch} :
    ((withAnyZoneSites b sites).setFor role).holdsSuffix name app = true ↔
      (b.setFor role).holdsSuffix name app = true ∨ TwinHeld b sites role name app := by
  rw [holds_suffix_iff, holds_suffix_iff]
  constructor
  · intro h
    obtain ⟨r, hr, he, happ, haddr⟩ := h
    rcases mem_any_zone_sites.mp hr with hr | ⟨q, hq, hqe, base, hbase, n, hn, hout, rfl⟩
    · exact Or.inl ⟨r, hr, he, happ, haddr⟩
    · have hname : n = name := by simpa [siteTwin] using haddr
      subst hname
      exact Or.inr ⟨hout, q, hq, hqe, happ, base, hbase, hn⟩
  · intro h
    rcases h with ⟨r, hr, he, happ, haddr⟩ | ⟨hout, q, hq, hqe, happ, base, hbase, hn⟩
    · exact ⟨r, mem_any_zone_sites.mpr (Or.inl hr), he, happ, haddr⟩
    · exact ⟨siteTwin q name, mem_any_zone_sites.mpr (Or.inr ⟨q, hq, hqe, base, hbase, name, hn,
        hout, rfl⟩), hqe, happ, rfl⟩

theorem names_suffix_of_twin (hr : r ∈ (b.setFor role).rules) (he : r.enabled = true)
    {base n : Text} (hbase : r.addressMatch = some (.anyZoneDomain base)) (hn : n ∈ sites base) :
    (withAnyZoneSites b sites).namesSuffixOutright n = true := by
  by_cases hout : b.namesSuffixOutright n = true
  · obtain ⟨role', q, hq, hqe, haddr⟩ := names_suffix_iff.mp hout
    exact names_suffix_iff.mpr ⟨role', q, mem_any_zone_sites.mpr (Or.inl hq), hqe, haddr⟩
  · exact names_suffix_iff.mpr ⟨role, siteTwin r n, mem_any_zone_sites.mpr (Or.inr ⟨r, hr, he,
      base, hbase, n, hn, Bool.eq_false_iff.mpr hout, rfl⟩), he, rfl⟩

/-- A pass that no suffix rule takes part in collects what it did. -/
theorem collect_sites {filter : CanonicalRule → AppFilterResult}
    {claim : RouteRole → CanonicalRule → Option (MatchClass × ℕ)}
    (hclaim : ∀ role r n, r.addressMatch = some (.suffixDomain n) → claim role r = none) :
    collect (withAnyZoneSites b sites) filter claim = collect b filter claim := by
  rw [collect, collect]
  congr 1
  funext role
  rw [any_zone_sites_set, List.filterMap_filter, List.filterMap_filter]
  refine sort_by_append_filter_map (b.setFor role).sorted fun r hr => ?_
  obtain ⟨q, -, hq⟩ := List.mem_flatMap.mp hr
  rw [siteTwins] at hq
  split at hq
  · obtain ⟨n, -, rfl⟩ := List.mem_map.mp hq
    rw [hclaim role (siteTwin q n) n rfl]
    simp
  · cases hq

theorem tier_list_sites {input : NormalizedDecisionInput} {lookup : LookupResult}
    {tier : MatchClass} (ht : tier ≠ .suffixDomain) :
    tierList input lookup (withAnyZoneSites b sites) tier = tierList input lookup b tier := by
  cases tier with
  | suffixDomain => exact (ht rfl).elim
  | exactFqdn =>
    refine congrArg (overHostname input _) (funext fun h => collect_sites fun role r n ha => ?_)
    simp [exactFqdnClaim, ha]
  | zone =>
    refine congrArg (overHostname input _) (funext fun h => collect_sites fun role r n ha => ?_)
    simp [zoneClaim, ha]
  | exactIp =>
    refine congrArg (overAddresses input _) (funext fun ip => collect_sites fun role r n ha => ?_)
    simp [exactIpClaim, ha]
  | subnet =>
    refine congrArg (overAddresses input _) (funext fun ip => collect_sites fun role r n ha => ?_)
    simp [subnetClaim, ha, CanonicalAddressMatch.ipBlocks]
  | application =>
    refine congrArg (overApplication input) (funext fun i => collect_sites fun role r n ha => ?_)
    simp [applicationClaim, ha]

end

section
variable {input : NormalizedDecisionInput} {lookup : LookupResult} {b : CanonicalRuleBook}
  {sites : Text → List Text} {h : Text} (hwf : hasEmptyLabel h = false)
  (hs : SitesReported b sites h) (hh : input.hostname = .valid h)
include hwf hs hh

omit hh in
theorem site_claim {role : RouteRole} {q : CanonicalRule} {base n : Text}
    (hq : q ∈ (b.setFor role).rules) (hqe : q.enabled = true)
    (hbase : q.addressMatch = some (.anyZoneDomain base)) (hn : n ∈ sites base)
    (hm : matchSuffixDomain h n = true) : matchAnyZoneDomain h base = some n := by
  obtain ⟨zone, rfl, hzone⟩ := hs.spelled q (mem_all_rules.mpr ⟨role, hq⟩) hqe base hbase n hn
  refine match_any_zone_of_suffix ?_ hzone hm
  rintro rfl
  rw [List.nil_append, no_suffix_with_leading_dot hwf] at hm
  cases hm

theorem left_of_claims_sites {x : Claimant}
    (hx : Claims input lookup (withAnyZoneSites b sites) x) : Left input lookup b sites h x := by
  obtain ⟨role, r, p⟩ := x
  obtain ⟨hr, he, hel, hnames⟩ := hx
  dsimp only at hr he hel hnames
  rcases mem_any_zone_sites.mp hr with hr | ⟨q, hq, hqe, base, hbase, n, hn, hout, rfl⟩
  · cases hnames with
    | suffixDomain host label hopen hhost haddr hnames =>
      exact ⟨⟨role, r, _⟩, ⟨hr, he, hel, .suffixDomain host label hopen hhost haddr hnames⟩,
        by simp [SwitchedOff, haddr], by simp [atSite, haddr]⟩
    | siteZone host name hopen hhost haddr hsite hnames halone =>
      rw [Bool.eq_false_iff, ne_eq, holds_suffix_sites, not_or, Bool.not_eq_true] at halone
      refine ⟨⟨role, r, _⟩, ⟨hr, he, hel, .siteZone host name hopen hhost haddr hsite hnames
        halone.1⟩, ?_, by simp [atSite, haddr]⟩
      rintro ⟨name', haddr', htwin⟩
      obtain rfl : name = name' := by simpa [haddr] using haddr'
      exact halone.2 htwin
    | anyZone host base named hopen hhost haddr hnames halone =>
      -- the rule's own site is reported, so the expanded book names it outright
      obtain rfl : h = host := by simpa [hh] using hhost
      have hsite := hs.covers r (mem_all_rules.mpr ⟨role, hr⟩) he base haddr named hnames
      simp [names_suffix_of_twin hr he haddr hsite] at halone
  · cases hnames with
    | suffixDomain host label hopen hhost haddr hnames =>
      obtain rfl : h = host := by simpa [hh] using hhost
      obtain rfl : n = label := by simpa [siteTwin] using haddr
      have hsite := site_claim hwf hs hq hqe hbase hn hnames
      refine ⟨⟨role, q, _⟩, ⟨hq, hqe, hel, .anyZone h base n hopen hhost hbase hsite hout⟩, ?_, ?_⟩
      · simp [SwitchedOff, hbase]
      · simp [atSite, hbase, hsite]
    | siteZone host name hopen hhost haddr => simp [siteTwin] at haddr
    | anyZone host base named hopen hhost haddr => simp [siteTwin] at haddr

omit hwf in
theorem claims_sites_of_left {x : Claimant} (hx : Left input lookup b sites h x) :
    Claims input lookup (withAnyZoneSites b sites) x := by
  obtain ⟨⟨role, r, p⟩, ⟨hr, he, hel, hnames⟩, hoff, rfl⟩ := hx
  dsimp only at hr he hel hnames hoff ⊢
  have hr' : r ∈ ((withAnyZoneSites b sites).setFor role).rules :=
    mem_any_zone_sites.mpr (Or.inl hr)
  cases hnames with
  | suffixDomain host label hopen hhost haddr hnames =>
    have hown : atSite h r = r := by simp [atSite, haddr]
    rw [hown]
    exact ⟨hr', he, hel, .suffixDomain host label hopen hhost haddr hnames⟩
  | siteZone host name hopen hhost haddr hsite hnames halone =>
    have hown : atSite h r = r := by simp [atSite, haddr]
    rw [hown]
    refine ⟨hr', he, hel, .siteZone host name hopen hhost haddr hsite hnames ?_⟩
    rw [Bool.eq_false_iff, ne_eq, holds_suffix_sites, not_or, Bool.not_eq_true]
    exact ⟨halone, fun htwin => hoff ⟨name, haddr, htwin⟩⟩
  | anyZone host base named hopen hhost haddr hnames halone =>
    obtain rfl : h = host := by simpa [hh] using hhost
    have htwin : atSite h r = siteTwin r named := by simp [atSite, haddr, hnames]
    have hsite := hs.covers r (mem_all_rules.mpr ⟨role, hr⟩) he base haddr named hnames
    obtain ⟨-, -, -, -, hsuffix⟩ := match_any_zone_iff.mp hnames
    rw [htwin]
    exact ⟨mem_any_zone_sites.mpr (Or.inr ⟨r, hr, he, base, haddr, named, hsite, halone, rfl⟩),
      he, hel, .suffixDomain h named hopen hhost rfl hsuffix⟩

theorem left_of_claims {x : Claimant} (hx : Claims input lookup b x) :
    ∃ y, Left input lookup b sites h y := by
  obtain ⟨role, r, p⟩ := x
  by_cases hoff : SwitchedOff b sites ⟨role, r, p⟩
  · obtain ⟨n, haddr, hout, q, hq, hqe, happ, base, hbase, hn⟩ := hoff
    obtain ⟨hr, he, hel, hnames⟩ := hx
    dsimp only at hr he hel hnames haddr happ hq
    cases hnames with
    | siteZone host name hopen hhost haddr' hsite hnames halone =>
      obtain rfl : h = host := by simpa [hh] using hhost
      obtain rfl : n = name := by simpa [haddr] using haddr'
      have hsite := site_claim hwf hs hq hqe hbase hn (match_zone_suffix hnames)
      refine ⟨_, ⟨role, q, _⟩, ⟨hq, hqe, ?_, .anyZone h base n hopen hhost hbase hsite hout⟩,
        by simp [SwitchedOff, hbase], rfl⟩
      simpa only [evalAppFilter, happ] using hel
    | suffixDomain host label hopen hhost haddr' => simp [haddr] at haddr'
    | anyZone host base named hopen hhost haddr' => simp [haddr] at haddr'
  · exact ⟨_, _, hx, hoff, rfl⟩

end

/-- The expansion keeps the decision exactly when the zones its twins switch off can be spared and
the new ids put no other rule first. -/
theorem any_zone_sites_decision_iff (b : CanonicalRuleBook) (sites : Text → List Text) (h : Text)
    (hwf : hasEmptyLabel h = false) (hs : SitesReported b sites h)
    (input : NormalizedDecisionInput) (hh : input.hostname = .valid h) (lookup : LookupResult)
    (policy : ZonePriorityPolicy) (mode : RouteBehaviorMode) :
    (matchRules input lookup (withAnyZoneSites b sites) policy mode).outcome =
        (matchRules input lookup b policy mode).outcome ↔
      ZonesStand b sites h input lookup := by
  have hrounds {rs : List (Bool × MatchClass)} (hrs : ∀ round ∈ rs, round.2 ≠ .suffixDomain) :
      rs.map (roundOf input lookup (withAnyZoneSites b sites)) =
        rs.map (roundOf input lookup b) :=
    List.map_congr_left fun round hmem => by
      rw [roundOf, roundOf, tier_list_sites (hrs round hmem)]
  have hbefore : tiersBefore input lookup (withAnyZoneSites b sites) policy =
      tiersBefore input lookup b policy :=
    @hrounds [(true, .exactIp), (true, .application), (false, .exactFqdn)] (by decide)
  have hafter : tiersAfter input lookup (withAnyZoneSites b sites) policy =
      tiersAfter input lookup b policy := by
    rw [tiersAfter, tiersAfter, tiers_rounds, tiers_rounds, ← List.map_drop, ← List.map_drop]
    refine hrounds ?_
    obtain ⟨preferIp⟩ := policy
    cases preferIp <;> decide
  have hleft : Claims input lookup (withAnyZoneSites b sites) = Left input lookup b sites h :=
    funext fun x => propext ⟨left_of_claims_sites hwf hs hh, claims_sites_of_left hs hh⟩
  rw [match_rules_outcome, match_rules_outcome, tiers_split, tiers_split, decided_append,
    decided_append, hbefore, hafter, ZonesStand, ← @decided_before_iff input lookup b policy]
  cases decided (tiersBefore input lookup b policy) with
  | some d => simp
  | none =>
    simp only [Option.none_or, ne_eq, not_true_eq_false, false_or]
    by_cases hsome : ∃ x, Claims input lookup b x
    · obtain ⟨y, hy⟩ := left_of_claims hwf hs hh hsome.choose_spec
      obtain ⟨x, hx, hbook⟩ := exists_first (claims_nonempty.mp hsome)
        (tiersAfter input lookup b policy)
      obtain ⟨y, hy, hexpanded⟩ := exists_first (claims_nonempty.mp ⟨y, hleft.symm ▸ hy⟩)
        (tiersAfter input lookup b policy)
      rw [hleft] at hy
      rw [hbook, hexpanded, Option.some.injEq, Prod.mk.injEq]
      constructor
      · rintro ⟨hrole, haction⟩ x' y' hx' hy'
        obtain ⟨hxr, hxa⟩ := first_unique hx' hx
        obtain ⟨hyr, hya⟩ := first_unique hy' hy
        exact ⟨hxr.trans (hrole.symm.trans hyr.symm), hxa.trans (haction.symm.trans hya.symm)⟩
      · intro hall
        obtain ⟨hrole, haction⟩ := hall x y hx hy
        exact ⟨hrole.symm, haction.symm⟩
    · have hnone : ¬ ∃ x, Claims input lookup (withAnyZoneSites b sites) x := by
        rintro ⟨x, hx⟩
        obtain ⟨y, hy, -⟩ := left_of_claims_sites hwf hs hh hx
        exact hsome ⟨y, hy⟩
      rw [decided_cons_nil (not_not.mp (mt claims_nonempty.mpr hsome)),
        decided_cons_nil (not_not.mp (mt claims_nonempty.mpr hnone))]
      exact iff_of_true rfl fun x y hx => (hsome ⟨x, hx.1⟩).elim

def exampleSites (base : Text) : List Text :=
  if base = "example".toList then ["example.com".toList] else []

def siteBook : CanonicalRuleBook :=
  bookOf [addressRule "R-0001" true (.exactFqdn "foo.org".toList) .verify]
    [addressRule "R-0002" true (.anyZoneDomain "example".toList) .route]

theorem example_sites_reported :
    SitesReported siteBook exampleSites "www.example.com".toList := by
  have hbase : ∀ r ∈ siteBook.allRules, ∀ base,
      r.addressMatch = some (.anyZoneDomain base) → base = "example".toList := by
    have hrules : ∀ r ∈ siteBook.allRules,
        r.addressMatch = some (.exactFqdn "foo.org".toList) ∨
          r.addressMatch = some (.anyZoneDomain "example".toList) := by decide +kernel
    intro r hr base ha
    rcases hrules r hr with h | h
    · simp [h] at ha
    · simpa [h] using ha.symm
  constructor
  · intro r hr _ base ha n hn
    obtain rfl := hbase r hr base ha
    have hsite : matchAnyZoneDomain "www.example.com".toList "example".toList =
        some "example.com".toList := by decide +kernel
    obtain rfl := Option.some.inj (hsite.symm.trans hn)
    decide +kernel
  · intro r hr _ base ha n hn
    obtain rfl := hbase r hr base ha
    have hlist : exampleSites "example".toList = ["example.com".toList] := by decide +kernel
    rw [hlist, List.mem_singleton] at hn
    subst hn
    exact ⟨"com".toList, by decide +kernel, by decide +kernel⟩

theorem any_zone_sites_decision_at_site :
    (matchRules (connection (some "www.example.com".toList) none) ⟨none⟩
        (withAnyZoneSites siteBook exampleSites) ⟨true⟩ .preferPrimary).outcome =
      (matchRules (connection (some "www.example.com".toList) none) ⟨none⟩ siteBook ⟨true⟩
        .preferPrimary).outcome := by
  refine (any_zone_sites_decision_iff siteBook exampleSites _ (by decide +kernel)
    example_sites_reported (connection (some "www.example.com".toList) none) rfl ⟨none⟩ ⟨true⟩
    .preferPrimary).mpr (Or.inr ?_)
  -- the check names another host, so the rule for the site is the only claimant
  have hall (x : Claimant) (hx : Claims (connection (some "www.example.com".toList) none) ⟨none⟩
      siteBook x) : x.role = .secondary ∧
      x.rule = addressRule "R-0002" true (.anyZoneDomain "example".toList) .route := by
    obtain ⟨role, r, p⟩ := x
    obtain ⟨hr, -, -, hnames⟩ := hx
    cases role with
    | primary =>
      have hrule : ∀ r ∈ (siteBook.setFor .primary).rules,
          r.addressMatch = some (.exactFqdn "foo.org".toList) := by decide +kernel
      have haddr := hrule r hr
      cases hnames <;> simp_all
    | secondary =>
      have hrule : ∀ r ∈ (siteBook.setFor .secondary).rules,
          r = addressRule "R-0002" true (.anyZoneDomain "example".toList) .route := by
        decide +kernel
      exact ⟨rfl, hrule r hr⟩
  rintro x - ⟨hx, -⟩ ⟨⟨y, hy, -, rfl⟩, -⟩
  obtain ⟨hxrole, hxrule⟩ := hall x hx
  obtain ⟨hyrole, hyrule⟩ := hall y hy
  refine ⟨hxrole.trans hyrole.symm, ?_⟩
  simp only [hxrule, hyrule]
  decide +kernel

def zoneBesideSite : CanonicalRuleBook :=
  bookOf [addressRule "R-0001" true (.anyZoneDomain "example".toList) .block,
    addressRule "R-0002" true (.zone "example.com".toList) .route] []

/-- The twin of the site switches the zone off, and the Block takes over. -/
theorem site_twin_switches_zone_off :
    (matchRules (connection (some "www.example.com".toList) none) ⟨none⟩ zoneBesideSite ⟨true⟩
        .preferPrimary).outcome = some (.primary, .route) ∧
      (matchRules (connection (some "www.example.com".toList) none) ⟨none⟩
        (withAnyZoneSites zoneBesideSite exampleSites) ⟨true⟩ .preferPrimary).outcome =
          some (.primary, .block) := by
  decide +kernel

end NetRuleRouter.SiteExpansion
