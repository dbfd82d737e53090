import NetRuleRouter.RuleMatching

/-!
# What a decision depends on

The selection keeps a leading eligible candidate and the tiers are rounds of
one contest, so the route and the action a book decides on depend only on its
enabled rules, and on those only up to the standing of their candidates.
-/

set_option autoImplicit false

namespace NetRuleRouter.RuleSelection
open TextOps IpNetwork Sorting HostMatching Canonical RuleMatching

def eligible (candidates : List RuleMatchCandidate) : List RuleMatchCandidate :=
  candidates.filter (·.appFilterResult.isEligible)

variable {c : RuleMatchCandidate}

@[simp] theorem mem_eligible {cs : List RuleMatchCandidate} :
    c ∈ eligible cs ↔ c ∈ cs ∧ c.appFilterResult.isEligible = true := by
  rw [eligible, List.mem_filter]

variable {filter : CanonicalRule → AppFilterResult}
variable {claim : RouteRole → CanonicalRule → Option (MatchClass × ℕ)}

theorem mem_collect {book : CanonicalRuleBook} :
    c ∈ collect book filter claim ↔ ∃ role, ∃ r ∈ (book.setFor role).rules, r.enabled = true ∧
      ∃ p, claim role r = some p ∧ makeCandidate r role (filter r) p = c := by
  simp only [collect, List.mem_flatMap, List.mem_filterMap, List.mem_filter, Option.map_eq_some_iff]
  constructor
  · intro h
    obtain ⟨role, -, r, ⟨hr, he⟩, p, hp, hc⟩ := h
    exact ⟨role, r, hr, he, p, hp, hc⟩
  · intro h
    obtain ⟨role, r, hr, he, p, hp, hc⟩ := h
    refine ⟨role, ?_, r, ⟨hr, he⟩, p, hp, hc⟩
    cases role <;> simp

def decides (c : RuleMatchCandidate) : RouteRole × RuleAction := (c.routeRole, c.action)

theorem select_winner_decides (cs : List RuleMatchCandidate) :
    (selectWinner cs).map decides = (best candidateOrder (eligible cs)).map decides := by
  rw [selectWinner, best, eligible]
  cases sortBy candidateOrder (cs.filter (·.appFilterResult.isEligible)) with
  | nil | cons top rest => rfl

def decided (tiers : List (List RuleMatchCandidate)) : Option (RouteRole × RuleAction) :=
  (firstBest candidateOrder (tiers.map eligible)).map decides

theorem outcome_eq {input : NormalizedDecisionInput} {lookup : LookupResult}
    {book : CanonicalRuleBook} {policy : ZonePriorityPolicy} (mode : RouteBehaviorMode) :
    (matchRules input lookup book policy mode).outcome =
      ((tiers input lookup book policy).findSome? selectWinner).map decides := by
  rw [matchRules]
  cases (tiers input lookup book policy).findSome? selectWinner <;> rfl

theorem match_rules_outcome (input : NormalizedDecisionInput) (lookup : LookupResult)
    (book : CanonicalRuleBook) (policy : ZonePriorityPolicy) (mode : RouteBehaviorMode) :
    (matchRules input lookup book policy mode).outcome =
      decided (tiers input lookup book policy) := by
  have hrounds (ts : List (List RuleMatchCandidate)) :
      (ts.findSome? selectWinner).map decides = decided ts := by
    induction ts with
    | nil => rfl
    | cons t ts ih =>
      have ht := select_winner_decides t
      rw [decided, firstBest, List.map_cons, List.findSome?_cons, List.findSome?_cons]
      cases hs : selectWinner t with
      | none =>
        rw [hs, Option.map_none, eq_comm, Option.map_eq_none_iff] at ht
        rw [ht]
        exact ih
      | some w =>
        rw [hs, Option.map_some, eq_comm, Option.map_eq_some_iff] at ht
        obtain ⟨w', hw', hd⟩ := ht
        rw [hw']
        simp [hd]
  rw [← hrounds, outcome_eq]

theorem standing_of_candidate_order (a b : RuleMatchCandidate) (h : InOrder candidateOrder a b) :
    InOrder standingOrder a b := by
  have hthen : ∀ o p : Ordering, (o.then p).isLE = true → o.isLE = true := by decide
  exact hthen _ _ h

theorem compare_then_le {m n : ℕ} {o : Ordering} :
    ((compare m n).then o).isLE = true ↔ m < n ∨ m = n ∧ o.isLE = true := by
  rcases Nat.lt_trichotomy m n with h | h | h
  · simp [Nat.compare_eq_lt.mpr h, h]
  · simp [h]
  · simp [Nat.compare_eq_gt.mpr h, h.ne', Nat.lt_asymm h]

variable {a b : RuleMatchCandidate} {d : RuleMatchCandidate}

theorem standing_eq (h : standingOrder a b = .eq) :
    a.specificity = b.specificity ∧ apexRank a.matchClass = apexRank b.matchClass ∧
      actionRank a.action = actionRank b.action ∧ a.routeRole = b.routeRole := by
  simp only [standingOrder, compareLex_eq_eq, compareOn, Nat.compare_eq_eq] at h
  obtain ⟨hs, ha, hb, hr⟩ := h
  refine ⟨hs.symm, ha, hb, ?_⟩
  revert hr
  cases a.routeRole <;> cases b.routeRole <;> simp [roleRank]

def Alike (c d : RuleMatchCandidate) : Prop :=
  c.routeRole = d.routeRole ∧ c.matchClass = d.matchClass ∧ c.specificity = d.specificity ∧
    c.appFilterResult = d.appFilterResult ∧ c.action = d.action

def Echoes (l m : List RuleMatchCandidate) : Prop := ∀ c ∈ l, ∃ d ∈ m, Alike c d

def Mirrors (l m : List RuleMatchCandidate) : Prop := Echoes l m ∧ Echoes m l

theorem alike_standing (h : Alike c d) : InOrder standingOrder d c := by
  obtain ⟨hr, hm, hs, -, ha⟩ := h
  have heq : standingOrder d c = .eq := by
    simp [standingOrder, compareLex_eq_eq, compareOn, hr, hm, hs, ha]
  rw [InOrder, heq]
  rfl

variable {l m : List RuleMatchCandidate}

theorem mirrors_covers (h : Mirrors l m) :
    Covers standingOrder l m ∧ Covers standingOrder m l := by
  have covers {l m : List RuleMatchCandidate} (h : Echoes l m) : Covers standingOrder l m := by
    intro c hc
    obtain ⟨d, hd, ha⟩ := h c hc
    exact ⟨d, hd, alike_standing ha⟩
  exact ⟨covers h.1, covers h.2⟩

theorem mirrors_nil (h : Mirrors l m) : l = [] ↔ m = [] := by
  have hnil {l m : List RuleMatchCandidate} (h : Echoes l m) (hm : m = []) : l = [] := by
    subst hm
    refine List.eq_nil_iff_forall_not_mem.mpr fun c hc => ?_
    obtain ⟨d, hd, -⟩ := h c hc
    cases hd
  exact ⟨hnil h.2, hnil h.1⟩

section
variable {host : Text} {ip : IpAddr} {role : RouteRole} {r : CanonicalRule} {p : MatchClass × ℕ}

theorem exact_ip_claim_iff (role : RouteRole) :
    exactIpClaim ip role r = some p ↔ r.addressMatch = some (.exactIp ip) ∧ (.exactIp, 1) = p := by
  unfold exactIpClaim
  rcases r.addressMatch with _ | (_ | _ | _ | _ | addr | _ | _) <;> simp

theorem exact_fqdn_claim_iff (role : RouteRole) :
    exactFqdnClaim host role r = some p ↔
      r.addressMatch = some (.exactFqdn host) ∧ (.exactFqdn, labelCount host) = p := by
  unfold exactFqdnClaim
  rcases r.addressMatch with _ | (label | _ | _ | _ | _ | _ | _)
  · simp
  · by_cases hl : label = host
    · simp [hl]
    · simp [hl]
  all_goals simp

theorem zone_claim_iff (role : RouteRole) :
    zoneClaim host role r = some p ↔ ∃ name, r.addressMatch = some (.zone name) ∧
      zoneRanksAsSuffix name = false ∧ matchZone host name = true ∧ (.zone, labelCount name) = p := by
  unfold zoneClaim
  rcases r.addressMatch with _ | (_ | _ | _ | name | _ | _ | _) <;> simp [and_assoc]

theorem suffix_claim_iff {book : CanonicalRuleBook} :
    suffixDomainClaim book host role r = some p ↔
      (∃ label, r.addressMatch = some (.suffixDomain label) ∧
        matchSuffixDomain host label = true ∧ (.suffixDomain, labelCount label) = p) ∨
      (∃ name, r.addressMatch = some (.zone name) ∧ zoneRanksAsSuffix name = true ∧
        matchZone host name = true ∧
        (book.setFor role).holdsSuffix name r.appMatch = false ∧ (.zone, labelCount name) = p) ∨
      (∃ base named, r.addressMatch = some (.anyZoneDomain base) ∧
        matchAnyZoneDomain host base = some named ∧
        book.namesSuffixOutright named = false ∧ (.suffixDomain, labelCount named) = p) := by
  unfold suffixDomainClaim
  rcases r.addressMatch with _ | (_ | label | base | name | _ | _ | _)
  · simp
  · simp
  · simp
  · cases hm : matchAnyZoneDomain host base with
    | none | some named => simp [hm]
  · simp [and_assoc]
  · simp
  · simp
  · simp

end

section
variable {input : NormalizedDecisionInput} {lookup : LookupResult}

theorem mem_over_hostname {closed : Option NormalizationError}
    {tier : Text → List RuleMatchCandidate} :
    c ∈ overHostname input closed tier ↔
      closed = none ∧ ∃ host, input.hostname = .valid host ∧ c ∈ tier host := by
  unfold overHostname
  cases closed with
  | some e => simp
  | none =>
    cases input.hostname with
    | valid host | unavailable | invalid raw e => simp

theorem mem_over_addresses {tier : IpAddr → List RuleMatchCandidate} :
    c ∈ overAddresses input lookup tier ↔ input.matchClassAvailability.exactIp = none ∧
      ∃ ip ∈ effectiveIpsForMatching input lookup, c ∈ tier ip := by
  unfold overAddresses
  cases input.matchClassAvailability.exactIp with
  | some e | none => simp

theorem mem_over_application {tier : NormalizedAppIdentity → List RuleMatchCandidate} :
    c ∈ overApplication input tier ↔ input.matchClassAvailability.application = none ∧
      ∃ identity, input.appIdentity = some identity ∧ c ∈ tier identity := by
  unfold overApplication
  cases input.matchClassAvailability.application with
  | some e => simp
  | none =>
    cases input.appIdentity with
    | none | some identity => simp

end

section
variable (input : NormalizedDecisionInput) (lookup : LookupResult) (book : CanonicalRuleBook)
  (policy : ZonePriorityPolicy)

def tiersBefore : List (List RuleMatchCandidate) := (tiers input lookup book policy).take 3

def suffixTier : List RuleMatchCandidate :=
  overHostname input input.matchClassAvailability.suffixDomain
    (collectSuffixDomain book input.appIdentity)

def tiersAfter : List (List RuleMatchCandidate) := (tiers input lookup book policy).drop 4

theorem tiers_split : tiers input lookup book policy =
    tiersBefore input lookup book policy ++
      suffixTier input book :: tiersAfter input lookup book policy := by
  rfl

end

def NoVerify (b : CanonicalRuleBook) : Prop :=
  ∀ role, ∀ r ∈ (b.setFor role).rules, r.enabled = true → r.action ≠ .verify

theorem decides_eq_of_standing (h : standingOrder a b = .eq) (ha : a.action ≠ .verify)
    (hb : b.action ≠ .verify) : decides a = decides b := by
  obtain ⟨-, -, hact, hrole⟩ := standing_eq h
  have haction : a.action = b.action := by
    revert hact ha hb
    cases a.action <;> cases b.action <;> simp [actionRank]
  rw [decides, decides, hrole, haction]

theorem decided_append (ts us : List (List RuleMatchCandidate)) :
    decided (ts ++ us) = (decided ts).or (decided us) := by
  simp only [decided, firstBest, List.map_append, List.findSome?_append]
  cases (ts.map eligible).findSome? (best candidateOrder) with
  | none | some c => rfl

theorem decided_none {ts : List (List RuleMatchCandidate)} :
    decided ts = none ↔ ∀ t ∈ ts, eligible t = [] := by
  simp [decided, first_best_none]

variable {t : List RuleMatchCandidate}

theorem decided_cons_nil (ht : eligible t = []) (ts : List (List RuleMatchCandidate)) :
    decided (t :: ts) = decided ts := by
  rw [decided, List.map_cons, ht]
  rfl

theorem decided_cons_leads (ht : eligible t ≠ []) (ts : List (List RuleMatchCandidate)) :
    ∃ c, Leads standingOrder (eligible t) c ∧ decided (t :: ts) = some (decides c) := by
  cases hb : best candidateOrder (eligible t) with
  | none => exact (ht ((best_eq_none candidateOrder).mp hb)).elim
  | some c =>
    obtain ⟨hmem, hlead⟩ := best_leads candidateOrder hb
    refine ⟨c, ⟨hmem, fun d hd => standing_of_candidate_order c d (hlead d hd)⟩, ?_⟩
    simp [decided, firstBest, hb]

theorem leads_decides (h : Mirrors l m) (hl : ∀ c ∈ l, c.action ≠ .verify)
    (hm : ∀ c ∈ m, c.action ≠ .verify) (hc : Leads standingOrder l c)
    (hd : Leads standingOrder m d) : decides c = decides d := by
  obtain ⟨hlm, hml⟩ := mirrors_covers h
  exact decides_eq_of_standing (leads_eq_of_covers standingOrder hlm hml hc hd) (hl c hc.1)
    (hm d hd.1)

theorem mirror_decided {ts us : List (List RuleMatchCandidate)}
    (h : List.Forall₂ (fun t u => Mirrors (eligible t) (eligible u)) ts us)
    (hts : ∀ t ∈ ts, ∀ c ∈ eligible t, c.action ≠ .verify)
    (hus : ∀ t ∈ us, ∀ c ∈ eligible t, c.action ≠ .verify) : decided ts = decided us := by
  induction h with
  | nil => rfl
  | @cons t u ts us htu _ ih =>
    by_cases ht : eligible t = []
    · rw [decided_cons_nil ht, decided_cons_nil ((mirrors_nil htu).mp ht)]
      exact ih (fun t ht => hts t (List.mem_cons_of_mem _ ht))
        fun u hu => hus u (List.mem_cons_of_mem _ hu)
    · obtain ⟨c, hc, hcd⟩ := decided_cons_leads ht ts
      obtain ⟨d, hd, hdd⟩ := decided_cons_leads (mt (mirrors_nil htu).mpr ht) us
      rw [hcd, hdd, leads_decides htu (hts t (by simp)) (hus u (by simp)) hc hd]

end NetRuleRouter.RuleSelection
