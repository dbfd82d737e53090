import NetRuleRouter.Arbiter

/-!
# The arbiter at one host

Where one host alone holds an address, every table of the arbiter answers
there by the claims on that host alone.
-/

set_option autoImplicit false

namespace NetRuleRouter.HostClaims
open TextOps Sorting IpNetwork
open HostMatching hiding labelCount
open Canonical StrongestTable FqdnCache
open LongestPrefix Arbiter

def namesHost (h : Text) (r : CanonicalRule) : Bool :=
  match r.addressMatch with
  | some (.exactFqdn host) => host == h
  | some (.suffixDomain suffix) => matchSuffixDomain h suffix
  | some (.zone zone) => matchZone h zone
  | _ => false

/-- The host is the only one the book names that holds the address, and the cache is far enough
from its caps to list every host and every address of the host. -/
structure Isolated (b : CanonicalRuleBook) (cache : FqdnCacheSnapshot) (h : Text) (ip : IpAddr) :
    Prop where
  lower : toAsciiLowercase h = h
  labels : hasEmptyLabel h = false
  cached : ip ∈ cache.ipsForHostname h
  alone : ∀ role, ∀ r ∈ (b.setFor role).rules, r.enabled = true →
    ∀ host ∈ hostsNamed cache r, ip ∈ cache.ipsForHostname host → host = h
  canonical : ∀ role, ∀ r ∈ (b.setFor role).rules, r.enabled = true → ∀ name,
    r.addressMatch = some (.suffixDomain name) ∨ r.addressMatch = some (.zone name) →
      CanonicalName name
  window : ∀ role, ∀ r ∈ (b.setFor role).rules, r.enabled = true → ∀ name,
    r.addressMatch = some (.suffixDomain name) ∨ r.addressMatch = some (.zone name) →
      (cache.under name).length < suffixFanoutBackstop
  room4 : ((cache.ipsForHostname h).filter IpAddr.isIpv4).length ≤ perHostnameIpCap
  room6 : ((cache.ipsForHostname h).filter fun a => !a.isIpv4).length ≤ perHostnameIpCap

variable {c : NameClaim} {host : Text} {link : Link}

section
variable {b : CanonicalRuleBook} {cache : FqdnCacheSnapshot} {h : Text} {ip : IpAddr}
variable {role : RouteRole} {r : CanonicalRule} {s : CanonicalRuleSet}

theorem mem_hosts_named (iso : Isolated b cache h ip) (hr : r ∈ (b.setFor role).rules)
    (he : r.enabled = true) : h ∈ hostsNamed cache r ↔ namesHost h r = true := by
  have hne : cache.ipsForHostname h ≠ [] := List.ne_nil_of_mem iso.cached
  have hcanon := iso.canonical role r hr he
  have hwindow := iso.window role r hr he
  unfold hostsNamed namesHost
  cases ha : r.addressMatch with
  | none => simp
  | some m =>
    cases m with
    | exactFqdn host =>
      rw [List.mem_singleton, beq_iff_eq]
      exact eq_comm
    | suffixDomain suffix =>
      exact mem_hostnames_for_suffix_domain (hcanon suffix (Or.inl ha))
        (hwindow suffix (Or.inl ha)) iso.lower iso.labels hne
    | zone zone =>
      exact mem_hostnames_under_suffix (hcanon zone (Or.inr ha)) (hwindow zone (Or.inr ha))
        iso.lower iso.labels hne
    | anyZoneDomain base | exactIp addr | subnet block | ipRange range => simp

theorem mem_route_rules :
    r ∈ routeRules s ↔
      r ∈ s.rules ∧ r.enabled = true ∧ r.appMatch = none ∧ r.action ≠ .block := by
  simp [routeRules, and_assoc]

def NameClaimed (s : CanonicalRuleSet) (h : Text) (c : NameClaim) : Prop :=
  ∃ r ∈ routeRules s, namesHost h r = true ∧ nameClaimOf s r = c

theorem names_strongest (cache : FqdnCacheSnapshot) (s : CanonicalRuleSet)
    (support : RuleShapeSupport) (host : Text) :
    Strongest {c | ∃ r ∈ routeRules s, host ∈ hostsNamed cache r ∧ nameClaimOf s r = c}
      (valueAt (nameClaims s cache support).names host) := by
  have hbest := raise_all_strongest ((routeRules s).flatMap fun r =>
    (hostsNamed cache r).map fun host => (host, nameClaimOf s r)) host
  refine cast (congrArg (Strongest · _) (Set.ext fun c => ?_)) hbest
  simp only [Set.mem_ofPred_eq, List.mem_flatMap, List.mem_map, Prod.mk.injEq]
  refine exists_congr fun r => and_congr_right fun _ => ?_
  constructor
  · intro hc
    obtain ⟨host, hhost, rfl, hclaim⟩ := hc
    exact ⟨hhost, hclaim⟩
  · intro hc
    exact ⟨host, hc.1, rfl, hc.2⟩

theorem names_entry {support : RuleShapeSupport}
    (hval : valueAt (nameClaims s cache support).names host = some c) :
    ∃ r ∈ routeRules s, host ∈ hostsNamed cache r ∧ nameClaimOf s r = c := by
  have hbest := names_strongest cache s support host
  rw [hval] at hbest
  exact hbest.1

theorem name_claim_strongest (iso : Isolated b cache h ip) (role : RouteRole)
    (support : RuleShapeSupport) :
    Strongest {c | NameClaimed (b.setFor role) h c}
      (valueAt (nameClaims (b.setFor role) cache support).names h) := by
  refine cast (congrArg (Strongest · _) (Set.ext fun c => ?_)) (names_strongest cache _ support h)
  simp only [Set.mem_ofPred_eq, NameClaimed]
  refine exists_congr fun r => and_congr_right fun hr => ?_
  obtain ⟨hmem, he, -⟩ := mem_route_rules.mp hr
  rw [mem_hosts_named iso hmem he]

end

section
variable {b : CanonicalRuleBook} {cache : FqdnCacheSnapshot} {h : Text} {ip : IpAddr}
variable (support : RuleShapeSupport) {e : Link × NameClaim}

def carriedBy (b : CanonicalRuleBook) (cache : FqdnCacheSnapshot) (support : RuleShapeSupport)
    (host : Text) : Option (Link × NameClaim) :=
  carried (nameClaims b.primary cache support) (nameClaims b.secondary cache support) host

theorem carrier_eq_none {m a : Option NameClaim} (h : carrier m a = none) :
    m = none ∧ a = none := by
  cases m with
  | none => cases a <;> simp_all [carrier]
  | some m =>
    cases a with
    | none => simp [carrier] at h
    | some a =>
      rw [carrier] at h
      split at h <;> simp at h

theorem carrier_some {m a : Option NameClaim} (h : carrier m a = some (link, c)) :
    link = .main ∧ m = some c ∧ (∀ c' ∈ a, c' ≤ c) ∨
      link = .additional ∧ a = some c ∧ ∀ c' ∈ m, c' < c := by
  cases m with
  | none => cases a <;> simp_all [carrier]
  | some m =>
    cases a with
    | none => simp_all [carrier]
    | some a =>
      rw [carrier] at h
      split at h
      · simp_all
      · simp_all

theorem carried_named (hc : carriedBy b cache support host = some e) :
    (host ∈ hosts (nameClaims b.primary cache support) (nameClaims b.secondary cache support)) ∧
      ∃ role, ∃ r ∈ (b.setFor role).rules, r.enabled = true ∧ host ∈ hostsNamed cache r := by
  have hside (s : CanonicalRuleSet) (c : NameClaim)
      (hv : valueAt (nameClaims s cache support).names host = some c) :
      ∃ r ∈ s.rules, r.enabled = true ∧ host ∈ hostsNamed cache r := by
    obtain ⟨r, hr, hhost, -⟩ := names_entry hv
    exact ⟨r, (mem_route_rules.mp hr).1, (mem_route_rules.mp hr).2.1, hhost⟩
  have hkey (s : CanonicalRuleSet) (c : NameClaim)
      (hv : valueAt (nameClaims s cache support).names host = some c) :
      host ∈ (nameClaims s cache support).names.map Prod.fst :=
    mem_keys.mpr (by simp [hv])
  simp only [hosts, List.mem_dedup, mem_sort_by, List.map_append, List.mem_append]
  unfold carriedBy carried at hc
  cases hm : valueAt (nameClaims b.primary cache support).names host with
  | some c => exact ⟨Or.inl (hkey _ c hm), .primary, hside b.primary c hm⟩
  | none =>
    cases ha : valueAt (nameClaims b.secondary cache support).names host with
    | some c => exact ⟨Or.inr (hkey _ c ha), .secondary, hside b.secondary c ha⟩
    | none => simp [hm, ha, carrier] at hc

theorem carried_at_address (iso : Isolated b cache h ip) :
    carriedBy b cache support host = some e ∧ ip ∈ cappedForHost cache host .both ↔
      host = h ∧ carriedBy b cache support h = some e := by
  constructor
  · intro hhost
    obtain ⟨hc, hip⟩ := hhost
    obtain ⟨-, role, r, hr, he, hnamed⟩ := carried_named support hc
    have heq := iso.alone role r hr he host hnamed (capped_subset hip)
    exact ⟨heq, heq ▸ hc⟩
  · intro hhost
    obtain ⟨rfl, hc⟩ := hhost
    exact ⟨hc, (mem_capped_for_host ip iso.room4 iso.room6).mpr iso.cached⟩

def claimOf (link : Link) (e : Option (Link × NameClaim)) : Option NameClaim :=
  e.bind fun e => if e.1 = link then some e.2 else none

theorem mem_host_entries :
    (ip, c) ∈ hostEntries cache (nameClaims b.primary cache support)
        (nameClaims b.secondary cache support) link ↔
      ∃ host, carriedBy b cache support host = some (link, c) ∧
        ip ∈ cappedForHost cache host .both := by
  rw [hostEntries, List.mem_flatMap]
  constructor
  · intro h
    obtain ⟨host, -, hin⟩ := h
    refine ⟨host, ?_⟩
    cases hc : carried (nameClaims b.primary cache support)
        (nameClaims b.secondary cache support) host with
    | none => simp [hc] at hin
    | some e =>
      obtain ⟨l, c'⟩ := e
      by_cases hl : l = link
      · simp only [hc, hl, if_true, List.mem_map, Prod.mk.injEq] at hin
        obtain ⟨a, ha, rfl, rfl⟩ := hin
        exact ⟨hl ▸ hc, ha⟩
      · simp [hc, hl] at hin
  · intro h
    obtain ⟨host, hc, hip⟩ := h
    refine ⟨host, (carried_named support hc).1, ?_⟩
    rw [carriedBy] at hc
    simpa [hc] using hip

theorem claim_at_address (iso : Isolated b cache h ip) (link : Link) :
    valueAt (raiseAll (hostEntries cache (nameClaims b.primary cache support)
        (nameClaims b.secondary cache support) link)) ip =
      claimOf link (carriedBy b cache support h) := by
  have hentry (c : NameClaim) : (ip, c) ∈ hostEntries cache (nameClaims b.primary cache support)
      (nameClaims b.secondary cache support) link ↔
        carriedBy b cache support h = some (link, c) := by
    simp only [mem_host_entries, carried_at_address support iso, exists_eq_left]
  refine strongest_unique (raise_all_strongest _ ip) ?_
  simp only [hentry, claimOf]
  cases carriedBy b cache support h with
  | none => simp [Strongest]
  | some e =>
    obtain ⟨l, c⟩ := e
    by_cases hl : l = link
    · subst hl
      simp [Strongest, IsGreatest, upperBounds]
    · simp [Strongest, hl]

end

end NetRuleRouter.HostClaims
