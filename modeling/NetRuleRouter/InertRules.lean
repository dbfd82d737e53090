import NetRuleRouter.Projection
import NetRuleRouter.Contenders

/-!
# Disabled rules through the projection

Decisions read enabled rules only. Two rewrites look at disabled rules as
well: a verdict about a disabled check rule still proves its hosts, and a
disabled suffix rule still keeps a bare name from covering its subdomains. Away
from those two a disabled rule changes no decision.
-/

set_option autoImplicit false

namespace NetRuleRouter.InertRules
open TextOps Canonical RuleMatching RuleSelection Contenders Projection

def SameClaim (r q : CanonicalRule) : Prop :=
  q.addressMatch = r.addressMatch ∧ q.appMatch = r.appMatch ∧ q.action = r.action

/-- Every enabled rule of `b₁` is restated by an enabled rule of the same set of `b₂`. -/
def Within (b₁ b₂ : CanonicalRuleBook) : Prop :=
  ∀ role, ∀ r ∈ (b₁.setFor role).rules, r.enabled = true →
    ∃ q ∈ (b₂.setFor role).rules, q.enabled = true ∧ SameClaim r q

def Equivalent (b₁ b₂ : CanonicalRuleBook) : Prop := Within b₁ b₂ ∧ Within b₂ b₁

variable {role : RouteRole} {app : Option CanonicalAppMatch} {name : Text}

section
variable {b₁ b₂ : CanonicalRuleBook}

theorem within_holds_suffix (h : Within b₁ b₂) (hs : (b₁.setFor role).holdsSuffix name app = true) :
    (b₂.setFor role).holdsSuffix name app = true := by
  obtain ⟨r, hr, he, happ, haddr⟩ := holds_suffix_iff.mp hs
  obtain ⟨q, hq, hqe, ha, hb, -⟩ := h role r hr he
  exact holds_suffix_iff.mpr ⟨q, hq, hqe, hb.trans happ, ha.trans haddr⟩

theorem equivalent_holds_suffix (h : Equivalent b₁ b₂) (role : RouteRole) (name : Text)
    (app : Option CanonicalAppMatch) :
    (b₁.setFor role).holdsSuffix name app = (b₂.setFor role).holdsSuffix name app :=
  Bool.eq_iff_iff.mpr ⟨within_holds_suffix h.1, within_holds_suffix h.2⟩

theorem within_names_suffix (h : Within b₁ b₂)
    (hs : b₁.namesSuffixOutright name = true) : b₂.namesSuffixOutright name = true := by
  obtain ⟨role, r, hr, he, haddr⟩ := names_suffix_iff.mp hs
  obtain ⟨q, hq, hqe, ha, -⟩ := h role r hr he
  exact names_suffix_iff.mpr ⟨role, q, hq, hqe, ha.trans haddr⟩

theorem equivalent_names_suffix (h : Equivalent b₁ b₂) (name : Text) :
    b₁.namesSuffixOutright name = b₂.namesSuffixOutright name :=
  Bool.eq_iff_iff.mpr ⟨within_names_suffix h.1, within_names_suffix h.2⟩

theorem eval_app_filter_same {app : Option NormalizedAppIdentity} (r q : CanonicalRule)
    (h : SameClaim r q) : evalAppFilter q app = evalAppFilter r app := by
  unfold evalAppFilter
  rw [h.2.1]

theorem equivalent_echoed (h : Equivalent b₁ b₂) (input : NormalizedDecisionInput)
    (lookup : LookupResult) (tier : MatchClass) : Echoed input lookup b₁ b₂ tier := by
  intro c hc
  obtain ⟨role, r, hr, he, hel, p, hp, rfl⟩ := hc
  obtain ⟨q, hq, hqe, hs⟩ := h.1 role r hr he
  have hfilter := @eval_app_filter_same input.appIdentity r q hs
  have hp' := names_congr hs.1 hs.2.1 (fun _ =>
    ⟨equivalent_holds_suffix ⟨h.2, h.1⟩ role, equivalent_names_suffix ⟨h.2, h.1⟩⟩) hp
  exact ⟨_, ⟨role, q, hq, hqe, hfilter ▸ hel, p, hp', rfl⟩, rfl, rfl, rfl,
    hfilter.symm, hs.2.2.symm⟩

theorem equivalent_outcome (h : Equivalent b₁ b₂) (hv₁ : NoVerify b₁) (hv₂ : NoVerify b₂)
    (input : NormalizedDecisionInput) (lookup : LookupResult) (policy : ZonePriorityPolicy)
    (mode : RouteBehaviorMode) :
    (matchRules input lookup b₁ policy mode).outcome =
      (matchRules input lookup b₂ policy mode).outcome := by
  rw [match_rules_outcome, match_rules_outcome, tiers_rounds, tiers_rounds]
  exact rounds_decided hv₁ hv₂ fun r _ =>
    ⟨equivalent_echoed h input lookup r.2, equivalent_echoed ⟨h.2, h.1⟩ input lookup r.2⟩

end

/-- Every host a disabled check rule proves is proven by an enabled one of the same set. -/
def VerdictsInert (moved : List VerifyMove) (b : CanonicalRuleBook) : Prop :=
  ∀ role, ∀ r ∈ (b.setFor role).rules, r.enabled = false → provenHosts moved role r ≠ [] →
    ∃ q ∈ (b.setFor role).rules, q.enabled = true ∧ isVerify q = true ∧
      q.addressMatch = r.addressMatch

/-- A bare name kept from covering its subdomains by a disabled suffix rule is kept from it by an
enabled one as well. -/
def SuffixesInert (b : CanonicalRuleBook) : Prop :=
  ∀ r ∈ b.allRules, r.enabled = true → ∀ d, r.addressMatch = some (.exactFqdn d) →
    ∀ s ∈ b.allRules, isSuffixWith d r.appMatch s = true →
      ∃ t ∈ b.allRules, t.enabled = true ∧ isSuffixWith d r.appMatch t = true

variable {r q : CanonicalRule} {d : Text} {b : CanonicalRuleBook} {p : CanonicalRule}

section
variable {b₁ b₂ : CanonicalRuleBook} {moved : List VerifyMove}

theorem one_destination_same (h : q.addressMatch = r.addressMatch) :
    oneDestination q = oneDestination r := by
  rw [oneDestination, oneDestination, h]

theorem moves_same (ha : q.addressMatch = r.addressMatch) (hv : isVerify q = isVerify r)
    (role : RouteRole) : movesOf moved role q = movesOf moved role r := by
  simp only [movesOf, VerifyKey.names, ha, hv]

theorem is_verify_same (h : SameClaim r q) : isVerify q = isVerify r := by
  rw [isVerify, isVerify, h.2.2]

theorem is_moved_same (h : SameClaim r q) (role : RouteRole) :
    isMoved moved role q = isMoved moved role r := by
  rw [isMoved, isMoved, one_destination_same h.1, moves_same h.1 (is_verify_same h)]

theorem as_route_same (h : SameClaim r q) : SameClaim (asRoute r) (asRoute q) := by
  rw [asRoute, asRoute, is_verify_same h]
  split
  · exact ⟨h.1, h.2.1, rfl⟩
  · exact h

@[simp] theorem as_route_enabled (r : CanonicalRule) : (asRoute r).enabled = r.enabled := by
  unfold asRoute
  split <;> rfl

@[simp] theorem as_route_address (r : CanonicalRule) :
    (asRoute r).addressMatch = r.addressMatch := by
  unfold asRoute
  split <;> rfl

@[simp] theorem as_route_app (r : CanonicalRule) : (asRoute r).appMatch = r.appMatch := by
  unfold asRoute
  split <;> rfl

theorem proven_hosts_enabled (h : p ∈ provenHosts moved role r) :
    p.enabled = true := by
  obtain ⟨-, m, -, rfl⟩ := (mem_proven_hosts moved).mp h
  rfl

theorem proven_hosts_same (ha : q.addressMatch = r.addressMatch)
    (hv : isVerify q = isVerify r) (h : p ∈ provenHosts moved role r) :
    ∃ p' ∈ provenHosts moved role q, SameClaim p p' := by
  obtain ⟨hone, m, hm, rfl⟩ := (mem_proven_hosts moved).mp h
  refine ⟨provenRule q (provenHost m.host), (mem_proven_hosts moved).mpr ⟨?_, m, ?_, rfl⟩,
    rfl, rfl, rfl⟩
  · rw [one_destination_same ha, hone]
  · rw [moves_same ha hv]
    exact hm

theorem proven_hosts_verify (h : provenHosts moved role r ≠ []) : isVerify r = true := by
  by_contra hv
  apply h
  simp [provenHosts, movesOf, Bool.eq_false_iff.mpr hv]

theorem within_verify_effective (h : Within b₁ b₂) (hi : VerdictsInert moved b₁) :
    Within (withVerifyEffective moved b₁) (withVerifyEffective moved b₂) := by
  intro role r hr he
  rcases mem_verify_effective.mp hr with ⟨q, hq, hm, rfl⟩ | ⟨q, hq, ⟨hm, rfl⟩ | hp⟩
  · obtain ⟨q', hq', he', hs⟩ := h role q hq (by simpa using he)
    refine ⟨asRoute q', mem_verify_effective.mpr (Or.inl ⟨q', hq', ?_, rfl⟩), by simpa using he',
      as_route_same hs⟩
    rw [is_moved_same hs, hm]
  · obtain ⟨q', hq', he', hs⟩ := h _ q hq (by simpa using he)
    refine ⟨asRoute q', mem_verify_effective.mpr (Or.inr ⟨q', hq', Or.inl ⟨?_, rfl⟩⟩),
      by simpa using he', as_route_same hs⟩
    rw [is_moved_same hs, hm]
  · -- a disabled rule passes its hosts to the enabled check rule of its address
    have hne : provenHosts moved (otherRole role) q ≠ [] := List.ne_nil_of_mem hp
    obtain ⟨e, he1, hee, hev, hea⟩ : ∃ e ∈ (b₁.setFor (otherRole role)).rules,
        e.enabled = true ∧ isVerify e = true ∧ e.addressMatch = q.addressMatch := by
      by_cases hqe : q.enabled = true
      · exact ⟨q, hq, hqe, proven_hosts_verify hne, rfl⟩
      · exact hi _ q hq (Bool.eq_false_iff.mpr hqe) hne
    obtain ⟨e', he1', hee', hs⟩ := h _ e he1 hee
    obtain ⟨p', hp', hps⟩ := proven_hosts_same (hs.1.trans hea)
      ((is_verify_same hs).trans (hev.trans (proven_hosts_verify hne).symm)) hp
    exact ⟨p', mem_verify_effective.mpr (Or.inr ⟨e', he1', Or.inr hp'⟩),
      proven_hosts_enabled hp', hps⟩

/-- Where a rule comes from: one of the book's own, or a host proven for one. -/
theorem from_verify_effective (h : r ∈ (withVerifyEffective moved b).allRules) :
    (∃ q ∈ b.allRules, r = asRoute q) ∨
      ∃ role, ∃ q ∈ (b.setFor role).rules, r ∈ provenHosts moved role q := by
  obtain ⟨role, hr⟩ := mem_all_rules.mp h
  rcases mem_verify_effective.mp hr with ⟨q, hq, -, rfl⟩ | ⟨q, hq, ⟨-, rfl⟩ | hp⟩
  · exact Or.inl ⟨q, mem_all_rules.mpr ⟨_, hq⟩, rfl⟩
  · exact Or.inl ⟨q, mem_all_rules.mpr ⟨_, hq⟩, rfl⟩
  · exact Or.inr ⟨_, q, hq, hp⟩

theorem is_suffix_with_iff :
    isSuffixWith d app r = true ↔ r.addressMatch = some (.suffixDomain d) ∧ r.appMatch = app := by
  simp [isSuffixWith]

theorem mem_sets :
    r ∈ (b.setFor role).rules ++ (b.setFor (otherRole role)).rules ↔ r ∈ b.allRules := by
  rw [CanonicalRuleBook.allRules, List.mem_append, List.mem_append]
  cases role with
  | primary => rfl
  | secondary => exact or_comm

theorem covered_name_same (h : Equivalent b₁ b₂) (hi : SuffixesInert b₂)
    (hq : q ∈ (b₂.setFor role).rules) (he : q.enabled = true) (hs : SameClaim r q)
    (hd : coveredName (b₁.setFor role) (b₁.setFor (otherRole role)) r = some d) :
    coveredName (b₂.setFor role) (b₂.setFor (otherRole role)) q = some d := by
  have happ := hs.2.1
  rcases covered_name_iff.mp hd with ⟨haddr, hfree⟩ | ⟨haddr, hz, hheld⟩
  · refine covered_name_iff.mpr (Or.inl ⟨hs.1.trans haddr, ?_⟩)
    intro s hs'
    apply Bool.eq_false_iff.mpr
    intro hsuf
    obtain ⟨t, ht, hte, htsuf⟩ := hi q (mem_sets.mp (List.mem_append_left _ hq)) he d
      (hs.1.trans haddr) s (mem_sets.mp hs') hsuf
    obtain ⟨trole, ht⟩ := mem_all_rules.mp ht
    obtain ⟨u, hu, -, hus⟩ := h.2 trole t ht hte
    obtain ⟨hta, htapp⟩ := is_suffix_with_iff.mp htsuf
    have husuf : isSuffixWith d r.appMatch u = true :=
      is_suffix_with_iff.mpr ⟨hus.1.trans hta, hus.2.1.trans (htapp.trans happ)⟩
    simp [hfree u (mem_sets.mpr (mem_all_rules.mpr ⟨trole, hu⟩))] at husuf
  · refine covered_name_iff.mpr (Or.inr ⟨hs.1.trans haddr, hz, ?_⟩)
    rw [happ, ← equivalent_holds_suffix h, hheld]

theorem within_subdomain_coverage (h : Equivalent b₁ b₂) (hi : SuffixesInert b₂) :
    Within (withSubdomainCoverage b₁) (withSubdomainCoverage b₂) := by
  intro role r hr he
  rcases mem_subdomain_coverage.mp hr with hr | ⟨q, hq, d, hd, rfl⟩
  · obtain ⟨q, hq, hqe, hs⟩ := h.1 role r hr he
    exact ⟨q, mem_subdomain_coverage.mpr (Or.inl hq), hqe, hs⟩
  · obtain ⟨q', hq', he', hs⟩ := h.1 role q hq he
    refine ⟨subdomainTwin q' d, mem_subdomain_coverage.mpr (Or.inr ⟨q', hq', d, ?_, rfl⟩), he',
      rfl, hs.2.1, hs.2.2⟩
    exact covered_name_same h hi hq' he' hs hd

theorem within_any_zone_sites (h : Equivalent b₁ b₂) (sites : Text → List Text) :
    Within (withAnyZoneSites b₁ sites) (withAnyZoneSites b₂ sites) := by
  intro role r hr he
  rcases mem_any_zone_sites.mp hr with hr | ⟨q, hq, hqe, base, hbase, name, hname, hout, rfl⟩
  · obtain ⟨q, hq, hqe, hs⟩ := h.1 role r hr he
    exact ⟨q, mem_any_zone_sites.mpr (Or.inl hq), hqe, hs⟩
  · obtain ⟨q', hq', he', hs⟩ := h.1 role q hq hqe
    refine ⟨siteTwin q' name, mem_any_zone_sites.mpr (Or.inr ⟨q', hq', he', base,
      hs.1.trans hbase, name, hname, ?_, rfl⟩), he', rfl, hs.2.1, hs.2.2⟩
    rw [← equivalent_names_suffix h, hout]

theorem no_verify_subdomain_coverage (h : NoVerify b) : NoVerify (withSubdomainCoverage b) := by
  intro role r hr he
  rcases mem_subdomain_coverage.mp hr with hr | ⟨q, hq, d, -, rfl⟩
  · exact h role r hr he
  · exact h role q hq he

theorem no_verify_any_zone_sites (h : NoVerify b) (sites : Text → List Text) :
    NoVerify (withAnyZoneSites b sites) := by
  intro role r hr he
  rcases mem_any_zone_sites.mp hr with hr | ⟨q, hq, hqe, base, -, name, -, -, rfl⟩
  · exact h role r hr he
  · exact h role q hq hqe

end

def enabledOnly (b : CanonicalRuleBook) : CanonicalRuleBook :=
  ⟨.fromRules (b.primary.rules.filter CanonicalRule.enabled),
    .fromRules (b.secondary.rules.filter CanonicalRule.enabled)⟩

theorem mem_enabled_only :
    r ∈ ((enabledOnly b).setFor role).rules ↔
      r ∈ (b.setFor role).rules ∧ r.enabled = true := by
  cases role <;> simp [enabledOnly, CanonicalRuleBook.setFor]

theorem enabled_only_equivalent (b : CanonicalRuleBook) : Equivalent b (enabledOnly b) := by
  constructor
  · intro role r hr he
    exact ⟨r, mem_enabled_only.mpr ⟨hr, he⟩, he, rfl, rfl, rfl⟩
  · intro role r hr he
    exact ⟨r, (mem_enabled_only.mp hr).1, he, rfl, rfl, rfl⟩

def project (moved : List VerifyMove) (sites : Text → List Text) (b : CanonicalRuleBook) :
    CanonicalRuleBook :=
  withAnyZoneSites (withSubdomainCoverage (withVerifyEffective moved b)) sites

/-- The name an enabled rule claims bare: written so, or proven by a check rule. -/
def BareName (moved : List VerifyMove) (b : CanonicalRuleBook) (d : Text)
    (app : Option CanonicalAppMatch) : Prop :=
  (∃ r ∈ b.allRules, r.enabled = true ∧ r.addressMatch = some (.exactFqdn d) ∧
    r.appMatch = app) ∨
  (app = none ∧ ∃ role, ∃ r ∈ (b.setFor role).rules, ∃ p ∈ provenHosts moved role r,
    p.addressMatch = some (.exactFqdn d))

structure DisabledInert (moved : List VerifyMove) (b : CanonicalRuleBook) : Prop where
  verdicts : VerdictsInert moved b
  suffixes : ∀ d app, BareName moved b d app → ∀ s ∈ b.allRules, isSuffixWith d app s = true →
    ∃ t ∈ b.allRules, t.enabled = true ∧ isSuffixWith d app t = true

theorem suffix_verify_effective {moved : List VerifyMove} {e : Bool} :
    (∃ s ∈ (withVerifyEffective moved b).allRules, s.enabled = e ∧ isSuffixWith d app s = true) ↔
      ∃ s ∈ b.allRules, s.enabled = e ∧ isSuffixWith d app s = true := by
  constructor
  · intro h
    obtain ⟨s, hs, he, hsuf⟩ := h
    rcases from_verify_effective hs with ⟨q, hq, rfl⟩ | ⟨_, q, -, hp⟩
    · exact ⟨q, hq, by simpa using he, by simpa [isSuffixWith] using hsuf⟩
    · obtain ⟨-, m, -, rfl⟩ := (mem_proven_hosts moved).mp hp
      have haddr : some (provenAddress (provenHost m.host)) = some (.suffixDomain d) :=
        (is_suffix_with_iff.mp hsuf).1
      rcases proven_address_exact (provenHost m.host) with ⟨addr, h⟩ | h
      · simp [h] at haddr
      · simp [h] at haddr
  · intro h
    obtain ⟨s, hs, he, hsuf⟩ := h
    obtain ⟨role, hs⟩ := mem_all_rules.mp hs
    have hstays : isMoved moved role s = false := by
      simp [isMoved, oneDestination, (is_suffix_with_iff.mp hsuf).1]
    exact ⟨asRoute s, mem_all_rules.mpr ⟨role, mem_verify_effective.mpr
      (Or.inl ⟨s, hs, hstays, rfl⟩)⟩, by simpa using he, by simpa [isSuffixWith] using hsuf⟩

theorem bare_name_verify_effective {moved : List VerifyMove}
    (hr : r ∈ (withVerifyEffective moved b).allRules) (he : r.enabled = true)
    (hd : r.addressMatch = some (.exactFqdn d)) : BareName moved b d r.appMatch := by
  rcases from_verify_effective hr with ⟨q, hq, rfl⟩ | ⟨_, q, hq, hp⟩
  · exact Or.inl ⟨q, hq, by simpa using he, by simpa using hd, by simp⟩
  · obtain ⟨-, m, -, rfl⟩ := (mem_proven_hosts moved).mp hp
    exact Or.inr ⟨rfl, _, q, hq, _, hp, hd⟩

theorem suffixes_inert_verify_effective {moved : List VerifyMove} (h : DisabledInert moved b) :
    SuffixesInert (withVerifyEffective moved b) := by
  intro r hr he d hd s hs hsuf
  obtain ⟨s', hs', -, hsuf'⟩ := suffix_verify_effective.mp ⟨s, hs, rfl, hsuf⟩
  obtain ⟨t, ht, hte, htsuf⟩ :=
    h.suffixes d r.appMatch (bare_name_verify_effective hr he hd) s' hs' hsuf'
  exact suffix_verify_effective.mpr ⟨t, ht, hte, htsuf⟩

theorem enabled_only_inert (moved : List VerifyMove) (b : CanonicalRuleBook) :
    DisabledInert moved (enabledOnly b) where
  verdicts role r hr he := by
    simp [(mem_enabled_only.mp hr).2] at he
  suffixes d app _ s hs hsuf := by
    obtain ⟨role, hs'⟩ := mem_all_rules.mp hs
    exact ⟨s, hs, (mem_enabled_only.mp hs').2, hsuf⟩

/-- Where no disabled check rule proves a host alone and no disabled suffix rule alone keeps a
bare name bare, the projected book decides as if the disabled rules were not in it. -/
theorem disabled_rules_inert (b : CanonicalRuleBook) (moved : List VerifyMove)
    (sites : Text → List Text) (h : DisabledInert moved b) (input : NormalizedDecisionInput)
    (lookup : LookupResult) (policy : ZonePriorityPolicy) (mode : RouteBehaviorMode) :
    (matchRules input lookup (project moved sites b) policy mode).outcome =
      (matchRules input lookup (project moved sites (enabledOnly b)) policy mode).outcome := by
  have h₀ := enabled_only_inert moved b
  have hbook := enabled_only_equivalent b
  have hverify : Equivalent (withVerifyEffective moved b)
      (withVerifyEffective moved (enabledOnly b)) :=
    ⟨within_verify_effective hbook.1 h.verdicts, within_verify_effective hbook.2 h₀.verdicts⟩
  have hcover : Equivalent (withSubdomainCoverage (withVerifyEffective moved b))
      (withSubdomainCoverage (withVerifyEffective moved (enabledOnly b))) :=
    ⟨within_subdomain_coverage hverify (suffixes_inert_verify_effective h₀),
      within_subdomain_coverage ⟨hverify.2, hverify.1⟩ (suffixes_inert_verify_effective h)⟩
  have hsites : Equivalent (project moved sites b) (project moved sites (enabledOnly b)) :=
    ⟨within_any_zone_sites hcover sites, within_any_zone_sites ⟨hcover.2, hcover.1⟩ sites⟩
  have hplain (c : CanonicalRuleBook) : NoVerify (project moved sites c) :=
    no_verify_any_zone_sites
      (no_verify_subdomain_coverage fun _ _ hr _ => effective_not_verify hr) sites
  exact equivalent_outcome hsites (hplain b) (hplain (enabledOnly b)) input lookup policy mode

def unrelatedDisabled : CanonicalRuleBook :=
  bookOf [] [addressRule "R-0001" true (.exactFqdn "example.com".toList) .route,
    addressRule "R-0002" false (.suffixDomain "example.org".toList) .route]

theorem disabled_rules_inert_beside_bare_name :
    DisabledInert [] unrelatedDisabled ∧
      (matchRules (connection (some "www.example.com".toList) none) ⟨none⟩
        (project [] (fun _ => []) unrelatedDisabled) ⟨true⟩ .preferPrimary).outcome =
      (matchRules (connection (some "www.example.com".toList) none) ⟨none⟩
        (project [] (fun _ => []) (enabledOnly unrelatedDisabled)) ⟨true⟩ .preferPrimary).outcome := by
  have hrules : ∀ r ∈ unrelatedDisabled.allRules,
      r = addressRule "R-0001" true (.exactFqdn "example.com".toList) .route ∨
        r = addressRule "R-0002" false (.suffixDomain "example.org".toList) .route := by
    decide +kernel
  have hproven (role : RouteRole) (r : CanonicalRule) : provenHosts [] role r = [] := by
    simp [provenHosts, movesOf]
  have hinert : DisabledInert [] unrelatedDisabled := by
    constructor
    · intro role r _ _ hne
      exact (hne (hproven role r)).elim
    · intro d app hbare s hs hsuf
      rcases hrules s hs with rfl | rfl
      · simp [isSuffixWith, addressRule] at hsuf
      · obtain ⟨hd, -⟩ := is_suffix_with_iff.mp hsuf
        have hdom : d = "example.org".toList := by simpa [addressRule] using hd.symm
        rcases hbare with ⟨r, hr, -, haddr, -⟩ | ⟨-, role, r, -, p, hp, -⟩
        · rcases hrules r hr with rfl | rfl
          · simp [addressRule, hdom] at haddr
          · simp [addressRule] at haddr
        · simp [hproven] at hp
  exact ⟨hinert, disabled_rules_inert unrelatedDisabled [] (fun _ => []) hinert _ _ _ _⟩

def disabledSuffix : CanonicalRuleBook :=
  bookOf [] [addressRule "R-0001" true (.exactFqdn "example.com".toList) .route,
    addressRule "R-0002" false (.suffixDomain "example.com".toList) .route]

/-- The disabled rule takes the subdomains away from the additional route. -/
theorem disabled_suffix_hides_subdomains :
    (matchRules (connection (some "www.example.com".toList) none) ⟨none⟩
        (project [] (fun _ => []) disabledSuffix) ⟨true⟩ .preferPrimary).outcome = none ∧
      (matchRules (connection (some "www.example.com".toList) none) ⟨none⟩
        (project [] (fun _ => []) (enabledOnly disabledSuffix)) ⟨true⟩ .preferPrimary).outcome =
          some (.secondary, .route) := by
  decide +kernel

end NetRuleRouter.InertRules
