import NetRuleRouter.RuleSelection

/-!
# The rules that contend for a connection

A rule contends in a tier when it is enabled, names the connection there and
its filter accepts the application. What the passes of the engine collect and
find eligible are exactly the contenders of their tier.
-/

set_option autoImplicit false

namespace NetRuleRouter.Contenders
open TextOps IpNetwork HostMatching Canonical RuleMatching RuleSelection

def tierOrder (policy : ZonePriorityPolicy) : List MatchClass :=
  [.exactFqdn, .suffixDomain] ++ policy.tier3Order ++ [.application]

def tierPlace (policy : ZonePriorityPolicy) (tier : MatchClass) : ℕ :=
  (tierOrder policy).idxOf tier

theorem mem_tier_order (policy : ZonePriorityPolicy) (tier : MatchClass) :
    tier ∈ tierOrder policy := by
  obtain ⟨preferIp⟩ := policy
  cases preferIp <;> cases tier <;> decide

theorem tiers_in_order (policy : ZonePriorityPolicy) :
    (tierOrder policy).Pairwise fun a b => tierPlace policy a < tierPlace policy b := by
  obtain ⟨preferIp⟩ := policy
  cases preferIp <;> decide

section
variable (input : NormalizedDecisionInput) (lookup : LookupResult) (book : CanonicalRuleBook)

/-- How a rule names the connection: the tier it competes in, the class it is reported under and
its specificity. A closed class names nothing, a zone of several labels gives way to the suffix
rule of its name in its own set, and a rule for any zone to a rule that names the suffix
outright. -/
inductive Names (role : RouteRole) (r : CanonicalRule) : MatchClass → MatchClass × ℕ → Prop
  | exactFqdn (host : Text) (hopen : input.matchClassAvailability.exactFqdn = none)
      (hhost : input.hostname = .valid host) (haddr : r.addressMatch = some (.exactFqdn host)) :
      Names role r .exactFqdn (.exactFqdn, labelCount host)
  | suffixDomain (host label : Text) (hopen : input.matchClassAvailability.suffixDomain = none)
      (hhost : input.hostname = .valid host) (haddr : r.addressMatch = some (.suffixDomain label))
      (hnames : matchSuffixDomain host label = true) :
      Names role r .suffixDomain (.suffixDomain, labelCount label)
  | siteZone (host name : Text) (hopen : input.matchClassAvailability.suffixDomain = none)
      (hhost : input.hostname = .valid host) (haddr : r.addressMatch = some (.zone name))
      (hsite : zoneRanksAsSuffix name = true) (hnames : matchZone host name = true)
      (halone : (book.setFor role).holdsSuffix name r.appMatch = false) :
      Names role r .suffixDomain (.zone, labelCount name)
  | anyZone (host base named : Text) (hopen : input.matchClassAvailability.suffixDomain = none)
      (hhost : input.hostname = .valid host) (haddr : r.addressMatch = some (.anyZoneDomain base))
      (hnames : matchAnyZoneDomain host base = some named)
      (halone : book.namesSuffixOutright named = false) :
      Names role r .suffixDomain (.suffixDomain, labelCount named)
  | zone (host name : Text) (hopen : input.matchClassAvailability.zone = none)
      (hhost : input.hostname = .valid host) (haddr : r.addressMatch = some (.zone name))
      (hsingle : zoneRanksAsSuffix name = false) (hnames : matchZone host name = true) :
      Names role r .zone (.zone, labelCount name)
  | exactIp (ip : IpAddr) (hopen : input.matchClassAvailability.exactIp = none)
      (hip : ip ∈ effectiveIpsForMatching input lookup)
      (haddr : r.addressMatch = some (.exactIp ip)) :
      Names role r .exactIp (.exactIp, 1)
  | subnet (ip : IpAddr) (block : IpBlock) (hopen : input.matchClassAvailability.exactIp = none)
      (hip : ip ∈ effectiveIpsForMatching input lookup)
      (hblock : (r.addressMatch.bind CanonicalAddressMatch.ipBlocks).bind
        (List.find? fun block => block.contains ip) = some block) :
      Names role r .subnet (.subnet, block.prefixLen)
  | application (identity : NormalizedAppIdentity) (app : CanonicalAppMatch) (specificity : ℕ)
      (hopen : input.matchClassAvailability.application = none)
      (hidentity : input.appIdentity = some identity) (haddr : r.addressMatch = none)
      (happ : r.appMatch = some app)
      (hnames : appMatchSpecificity app.pattern identity = some specificity) :
      Names role r .application (.application, specificity)

/-- An enabled rule of either set that names the connection, for an application its filter
accepts. -/
def Contender (tier : MatchClass) (c : RuleMatchCandidate) : Prop :=
  ∃ role, ∃ r ∈ (book.setFor role).rules, r.enabled = true ∧
    (evalAppFilter r input.appIdentity).isEligible = true ∧
    ∃ p, Names input lookup book role r tier p ∧
      c = makeCandidate r role (evalAppFilter r input.appIdentity) p

end

variable {c : RuleMatchCandidate} {p : MatchClass × ℕ} {tier : MatchClass} {role : RouteRole}

section
variable (input : NormalizedDecisionInput) (lookup : LookupResult) (book : CanonicalRuleBook)

def tierList : MatchClass → List RuleMatchCandidate
  | .exactFqdn => overHostname input input.matchClassAvailability.exactFqdn
      (collectExactFqdn book input.appIdentity)
  | .suffixDomain => suffixTier input book
  | .zone => overHostname input input.matchClassAvailability.zone
      (collectZone book input.appIdentity)
  | .exactIp => overAddresses input lookup (collectExactIp book input.appIdentity)
  | .subnet => overAddresses input lookup (collectSubnet book input.appIdentity)
  | .application => overApplication input (collectApplication book)

theorem tiers_eq (policy : ZonePriorityPolicy) : tiers input lookup book policy =
    [blocksOnly (tierList input lookup book .exactIp),
      blocksOnly (tierList input lookup book .application)] ++
      (tierOrder policy).map (tierList input lookup book) := by
  obtain ⟨preferIp⟩ := policy
  cases preferIp <;> rfl

variable {input lookup book} {round : Bool × MatchClass} {r : CanonicalRule}

theorem mem_collect_filter {claim : RouteRole → CanonicalRule → Option (MatchClass × ℕ)} :
    c ∈ eligible (collect book (evalAppFilter · input.appIdentity) claim) ↔
      ∃ role, ∃ r ∈ (book.setFor role).rules, r.enabled = true ∧
        (evalAppFilter r input.appIdentity).isEligible = true ∧
        ∃ p, claim role r = some p ∧
          c = makeCandidate r role (evalAppFilter r input.appIdentity) p := by
  rw [mem_eligible, mem_collect]
  constructor
  · intro h
    obtain ⟨⟨role, r, hr, he, p, hp, rfl⟩, hel⟩ := h
    exact ⟨role, r, hr, he, hel, p, hp, rfl⟩
  · intro h
    obtain ⟨role, r, hr, he, hel, p, hp, rfl⟩ := h
    exact ⟨⟨role, r, hr, he, p, hp, rfl⟩, hel⟩

theorem contender_of_claims {cs : List RuleMatchCandidate}
    {α : Type} {Sees : α → Prop} {claim : α → RouteRole → CanonicalRule → Option (MatchClass × ℕ)}
    (hcs : ∀ c, c ∈ eligible cs ↔ ∃ x, Sees x ∧
      c ∈ eligible (collect book (evalAppFilter · input.appIdentity) (claim x)))
    (hnames : ∀ role r p, Names input lookup book role r tier p ↔
      ∃ x, Sees x ∧ claim x role r = some p) (c : RuleMatchCandidate) :
    c ∈ eligible cs ↔ Contender input lookup book tier c := by
  rw [hcs]
  constructor
  · intro h
    obtain ⟨x, hx, hc⟩ := h
    obtain ⟨role, r, hr, he, hel, p, hp, rfl⟩ := mem_collect_filter.mp hc
    exact ⟨role, r, hr, he, hel, p, (hnames role r p).mpr ⟨x, hx, hp⟩, rfl⟩
  · intro h
    obtain ⟨role, r, hr, he, hel, p, hp, rfl⟩ := h
    obtain ⟨x, hx, hp⟩ := (hnames role r p).mp hp
    exact ⟨x, hx, mem_collect_filter.mpr ⟨role, r, hr, he, hel, p, hp, rfl⟩⟩

theorem mem_eligible_hostname {closed : Option NormalizationError}
    {tier : Text → List RuleMatchCandidate} :
    c ∈ eligible (overHostname input closed tier) ↔
      ∃ host, (closed = none ∧ input.hostname = .valid host) ∧ c ∈ eligible (tier host) := by
  simp only [mem_eligible, mem_over_hostname]
  tauto

theorem mem_eligible_addresses {tier : IpAddr → List RuleMatchCandidate} :
    c ∈ eligible (overAddresses input lookup tier) ↔
      ∃ ip, (input.matchClassAvailability.exactIp = none ∧
        ip ∈ effectiveIpsForMatching input lookup) ∧ c ∈ eligible (tier ip) := by
  simp only [mem_eligible, mem_over_addresses]
  tauto

theorem application_filter {identity : NormalizedAppIdentity}
    (hidentity : input.appIdentity = some identity)
    (hclaim : applicationClaim identity role r = some p) :
    evalAppFilter r input.appIdentity = .matched := by
  unfold applicationClaim at hclaim
  split at hclaim
  · rename_i app _ happ
    obtain ⟨s, hs, -⟩ := Option.map_eq_some_iff.mp hclaim
    simp [evalAppFilter, happ, hidentity, hs]
  · cases hclaim

theorem application_claim_iff :
    Names input lookup book role r .application p ↔
      input.matchClassAvailability.application = none ∧
      ∃ identity, input.appIdentity = some identity ∧ applicationClaim identity role r = some p := by
  constructor
  · intro h
    cases h with
    | application identity app specificity hopen hidentity haddr happ hnames =>
      exact ⟨hopen, identity, hidentity, by simp [applicationClaim, haddr, happ, hnames]⟩
  · intro h
    obtain ⟨hopen, identity, hidentity, hclaim⟩ := h
    unfold applicationClaim at hclaim
    split at hclaim
    · rename_i app haddr happ
      obtain ⟨s, hs, rfl⟩ := Option.map_eq_some_iff.mp hclaim
      exact .application identity app s hopen hidentity haddr happ hs
    · cases hclaim

theorem names_suffix_claim : Names input lookup book role r .suffixDomain p ↔
    ∃ host, (input.matchClassAvailability.suffixDomain = none ∧ input.hostname = .valid host) ∧
      suffixDomainClaim book host role r = some p := by
  simp only [suffix_claim_iff]
  constructor
  · intro h
    cases h with
    | suffixDomain host label hopen hhost haddr hnames =>
      exact ⟨host, ⟨hopen, hhost⟩, .inl ⟨label, haddr, hnames, rfl⟩⟩
    | siteZone host name hopen hhost haddr hsite hnames halone =>
      exact ⟨host, ⟨hopen, hhost⟩, .inr (.inl ⟨name, haddr, hsite, hnames, halone, rfl⟩)⟩
    | anyZone host base named hopen hhost haddr hnames halone =>
      exact ⟨host, ⟨hopen, hhost⟩, .inr (.inr ⟨base, named, haddr, hnames, halone, rfl⟩)⟩
  · intro h
    obtain ⟨host, ⟨hopen, hhost⟩, hclaim⟩ := h
    obtain ⟨label, haddr, hnames, rfl⟩ | ⟨name, haddr, hsite, hnames, halone, rfl⟩ |
      ⟨base, named, haddr, hnames, halone, rfl⟩ := hclaim
    · exact .suffixDomain host label hopen hhost haddr hnames
    · exact .siteZone host name hopen hhost haddr hsite hnames halone
    · exact .anyZone host base named hopen hhost haddr hnames halone

theorem mem_tier_list :
    c ∈ eligible (tierList input lookup book tier) ↔ Contender input lookup book tier c := by
  cases tier with
  | exactFqdn =>
    refine contender_of_claims (fun c => mem_eligible_hostname) (fun role r p => ?_) c
    simp only [exact_fqdn_claim_iff]
    constructor
    · intro h
      cases h with
      | exactFqdn host hopen hhost haddr => exact ⟨host, ⟨hopen, hhost⟩, haddr, rfl⟩
    · rintro ⟨host, ⟨hopen, hhost⟩, haddr, rfl⟩
      exact .exactFqdn host hopen hhost haddr
  | suffixDomain =>
    exact contender_of_claims (fun c => mem_eligible_hostname) (fun _ _ _ => names_suffix_claim) c
  | zone =>
    refine contender_of_claims (fun c => mem_eligible_hostname) (fun role r p => ?_) c
    simp only [zone_claim_iff]
    constructor
    · intro h
      cases h with
      | zone host name hopen hhost haddr hsingle hnames =>
        exact ⟨host, ⟨hopen, hhost⟩, name, haddr, hsingle, hnames, rfl⟩
    · rintro ⟨host, ⟨hopen, hhost⟩, name, haddr, hsingle, hnames, rfl⟩
      exact .zone host name hopen hhost haddr hsingle hnames
  | exactIp =>
    refine contender_of_claims (fun c => mem_eligible_addresses) (fun role r p => ?_) c
    simp only [exact_ip_claim_iff]
    constructor
    · intro h
      cases h with
      | exactIp ip hopen hip haddr => exact ⟨ip, ⟨hopen, hip⟩, haddr, rfl⟩
    · rintro ⟨ip, ⟨hopen, hip⟩, haddr, rfl⟩
      exact .exactIp ip hopen hip haddr
  | subnet =>
    refine contender_of_claims (fun c => mem_eligible_addresses) (fun role r p => ?_) c
    constructor
    · intro h
      cases h with
      | subnet ip block hopen hip hblock =>
        exact ⟨ip, ⟨hopen, hip⟩, by simp only [subnetClaim, hblock, Option.map_some]⟩
    · intro h
      obtain ⟨ip, ⟨hopen, hip⟩, hclaim⟩ := h
      obtain ⟨block, hblock, rfl⟩ := Option.map_eq_some_iff.mp hclaim
      exact .subnet ip block hopen hip hblock
  | application =>
    simp only [tierList, mem_eligible, mem_over_application, collectApplication, mem_collect]
    constructor
    · intro h
      obtain ⟨⟨hopen, identity, hidentity, role, r, hr, he, p, hp, rfl⟩, -⟩ := h
      have hf := application_filter hidentity hp
      exact ⟨role, r, hr, he, by rw [hf]; rfl, p,
        application_claim_iff.mpr ⟨hopen, identity, hidentity, hp⟩, by rw [hf]⟩
    · intro h
      obtain ⟨role, r, hr, he, -, p, hp, rfl⟩ := h
      obtain ⟨hopen, identity, hidentity, hclaim⟩ := application_claim_iff.mp hp
      have hf := application_filter hidentity hclaim
      rw [hf]
      exact ⟨⟨hopen, identity, hidentity, role, r, hr, he, p, hclaim, rfl⟩, rfl⟩

variable (input lookup book) in
/-- The Blocks of a tier, where it vetoes, or all of it. -/
def roundOf (round : Bool × MatchClass) : List RuleMatchCandidate :=
  if round.1 then blocksOnly (tierList input lookup book round.2)
  else tierList input lookup book round.2

theorem mem_round :
    c ∈ eligible (roundOf input lookup book round) ↔
      Contender input lookup book round.2 c ∧ (round.1 = true → c.action = .block) := by
  obtain ⟨veto, tier⟩ := round
  rw [← mem_tier_list, roundOf]
  cases veto with
  | false => simp
  | true =>
    simp only [if_true, mem_eligible, blocksOnly, List.mem_filter, beq_iff_eq, true_implies]
    tauto

def rounds (policy : ZonePriorityPolicy) : List (Bool × MatchClass) :=
  [(true, .exactIp), (true, .application)] ++ (tierOrder policy).map (Prod.mk false)

theorem tiers_rounds (policy : ZonePriorityPolicy) :
    tiers input lookup book policy = (rounds policy).map (roundOf input lookup book) := by
  obtain ⟨preferIp⟩ := policy
  cases preferIp <;> rfl

theorem names_congr {b₁ b₂ : CanonicalRuleBook} {q : CanonicalRule}
    (ha : q.addressMatch = r.addressMatch) (happ : q.appMatch = r.appMatch)
    (hbook : tier = .suffixDomain →
      (∀ name app, (b₂.setFor role).holdsSuffix name app = (b₁.setFor role).holdsSuffix name app) ∧
      ∀ name, b₂.namesSuffixOutright name = b₁.namesSuffixOutright name)
    (hp : Names input lookup b₁ role r tier p) : Names input lookup b₂ role q tier p := by
  cases hp with
  | exactFqdn host hopen hhost haddr => exact .exactFqdn host hopen hhost (ha.trans haddr)
  | suffixDomain host label hopen hhost haddr hnames =>
    exact .suffixDomain host label hopen hhost (ha.trans haddr) hnames
  | siteZone host name hopen hhost haddr hsite hnames halone =>
    refine .siteZone host name hopen hhost (ha.trans haddr) hsite hnames ?_
    rw [happ, (hbook rfl).1, halone]
  | anyZone host base named hopen hhost haddr hnames halone =>
    refine .anyZone host base named hopen hhost (ha.trans haddr) hnames ?_
    rw [(hbook rfl).2, halone]
  | zone host name hopen hhost haddr hsingle hnames =>
    exact .zone host name hopen hhost (ha.trans haddr) hsingle hnames
  | exactIp ip hopen hip haddr => exact .exactIp ip hopen hip (ha.trans haddr)
  | subnet ip block hopen hip hblock => exact .subnet ip block hopen hip (by rw [ha, hblock])
  | application identity app s hopen hidentity haddr hown hnames =>
    exact .application identity app s hopen hidentity (ha.trans haddr) (happ.trans hown) hnames

variable (input lookup) in
/-- Every contender of `b₁` in the tier has its like among those of `b₂`. -/
def Echoed (b₁ b₂ : CanonicalRuleBook) (tier : MatchClass) : Prop :=
  ∀ c, Contender input lookup b₁ tier c → ∃ d, Contender input lookup b₂ tier d ∧ Alike c d

variable {b₁ b₂ : CanonicalRuleBook}

theorem echoed_round (h : Echoed input lookup b₁ b₂ round.2) :
    Echoes (eligible (roundOf input lookup b₁ round)) (eligible (roundOf input lookup b₂ round)) := by
  intro c hc
  obtain ⟨hc, hveto⟩ := mem_round.mp hc
  obtain ⟨d, hd, ha⟩ := h c hc
  exact ⟨d, mem_round.mpr ⟨hd, fun hv => ha.2.2.2.2 ▸ hveto hv⟩, ha⟩

theorem rounds_decided (hv₁ : NoVerify b₁) (hv₂ : NoVerify b₂) {rs : List (Bool × MatchClass)}
    (h : ∀ r ∈ rs, Echoed input lookup b₁ b₂ r.2 ∧ Echoed input lookup b₂ b₁ r.2) :
    decided (rs.map (roundOf input lookup b₁)) = decided (rs.map (roundOf input lookup b₂)) := by
  have hact {b : CanonicalRuleBook} (hv : NoVerify b) (t : List RuleMatchCandidate)
      (ht : t ∈ rs.map (roundOf input lookup b)) (c : RuleMatchCandidate) (hc : c ∈ eligible t) :
      c.action ≠ .verify := by
    obtain ⟨round, -, rfl⟩ := List.mem_map.mp ht
    obtain ⟨⟨role, r, hr, he, -, p, -, rfl⟩, -⟩ := mem_round.mp hc
    exact hv role r hr he
  refine mirror_decided ?_ (hact hv₁) (hact hv₂)
  rw [List.forall₂_map_left_iff, List.forall₂_map_right_iff, List.forall₂_same]
  exact fun r hr => ⟨echoed_round (h r hr).1, echoed_round (h r hr).2⟩

end

end NetRuleRouter.Contenders
