import NetRuleRouter.OwnerTiers

/-!
# The arbiter at any address

What the arbiter holds at an address it holds through a route rule that names
the address, literally or through a cached host. Where no rule does, the
networks alone decide; where a link holds an address by more than a zone, one
of its rules names it in a way that comes before every network.
-/

set_option autoImplicit false

namespace NetRuleRouter.NamedAddresses
open TextOps IpNetwork Canonical StrongestTable FqdnCache LongestPrefix Arbiter HostClaims
open OwnerTiers

variable {c : NameClaim}

section
variable {b : CanonicalRuleBook} {cache : FqdnCacheSnapshot} {order : ZoneVsIpOrder}
variable {support : RuleShapeSupport} {ip : IpAddr} {r : CanonicalRule} {link : Link}

def NamesAddress (cache : FqdnCacheSnapshot) (ip : IpAddr) (r : CanonicalRule) : Prop :=
  literalOf r = some ip ∨ ∃ host ∈ hostsNamed cache r, ip ∈ cappedForHost cache host .both

def Named (b : CanonicalRuleBook) (cache : FqdnCacheSnapshot) (ip : IpAddr) : Prop :=
  ∃ role, ∃ r ∈ routeRules (b.setFor role), NamesAddress cache ip r

def linkClaims (b : CanonicalRuleBook) (cache : FqdnCacheSnapshot) (support : RuleShapeSupport)
    (link : Link) : Table IpAddr NameClaim :=
  raiseAll (hostEntries cache (nameClaims b.primary cache support)
    (nameClaims b.secondary cache support) link)

theorem carried_rule {host : Text} (h : carriedBy b cache support host = some (link, c)) :
    ∃ r ∈ routeRules (b.setFor (roleOf link)),
      host ∈ hostsNamed cache r ∧ nameClaimOf (b.setFor (roleOf link)) r = c := by
  rcases carrier_some h with ⟨rfl, hval, -⟩ | ⟨rfl, hval, -⟩
  · exact names_entry hval
  · exact names_entry hval

theorem claim_rule (h : valueAt (linkClaims b cache support link) ip = some c) :
    ∃ r ∈ routeRules (b.setFor (roleOf link)), nameClaimOf (b.setFor (roleOf link)) r = c ∧
      ∃ host ∈ hostsNamed cache r, ip ∈ cappedForHost cache host .both := by
  have hbest := raise_all_strongest (hostEntries cache (nameClaims b.primary cache support)
    (nameClaims b.secondary cache support) link) ip
  rw [show valueAt (raiseAll _) ip = some c from h] at hbest
  obtain ⟨host, hc, hip⟩ := (mem_host_entries support).mp hbest.1
  obtain ⟨r, hr, hhost, hclaim⟩ := carried_rule hc
  exact ⟨r, hr, hclaim, host, hhost, hip⟩

theorem mem_literals {s : CanonicalRuleSet} :
    ip ∈ literals s ↔ ∃ r ∈ routeRules s, literalOf r = some ip := by
  rw [literals, List.mem_filterMap]

theorem mem_main_iff :
    ip ∈ (resolveWithSupport b cache order support).main ↔
      (ip ∈ literals b.primary ∨
        (valueAt (linkClaims b cache support .main) ip).isSome = true) ∧
      losesToAdditionalLiteral (nameClaims b.primary cache support)
        (nameClaims b.secondary cache support) order (linkClaims b cache support .main) ip = false ∧
      losesToAdditionalName (nameClaims b.primary cache support)
        (nameClaims b.secondary cache support) order (linkClaims b cache support .main)
        (linkClaims b cache support .additional) ip = false := by
  change ip ∈ List.filter _ (_ ++ _) ↔ _
  rw [List.mem_filter, List.mem_append, mem_keys, Bool.and_eq_true, Bool.not_eq_true',
    Bool.not_eq_true']
  exact Iff.rfl

theorem mem_additional :
    ip ∈ (resolveWithSupport b cache order support).additional ↔
      ip ∈ literals b.secondary ∨
        (valueAt (linkClaims b cache support .additional) ip).isSome = true := by
  change ip ∈ _ ++ _ ↔ _
  rw [List.mem_append, mem_keys]
  exact Iff.rfl

theorem side_rule (link : Link) (h : ip ∈ literals (b.setFor (roleOf link)) ∨
      (valueAt (linkClaims b cache support link) ip).isSome = true) :
    ∃ r ∈ routeRules (b.setFor (roleOf link)), NamesAddress cache ip r := by
  rcases h with hlit | hclaim
  · obtain ⟨r, hr, hl⟩ := mem_literals.mp hlit
    exact ⟨r, hr, Or.inl hl⟩
  · obtain ⟨c, hc⟩ := Option.isSome_iff_exists.mp hclaim
    obtain ⟨r, hr, -, hhost⟩ := claim_rule hc
    exact ⟨r, hr, Or.inr hhost⟩

theorem resolved_networks :
    (resolveWithSupport b cache order support).networks = networksOfBook b support := rfl

theorem owner_resolved :
    (resolveWithSupport b cache order support).ownerOf ip =
      (resolveWithSupport b cache order support).addressOwner ip := rfl

theorem owner_of_unnamed (h : ¬Named b cache ip) :
    (resolveWithSupport b cache order support).ownerOf ip =
      (networksOfBook b support).winner ip := by
  have hm : ip ∉ (resolveWithSupport b cache order support).main := fun hm =>
    h ⟨_, side_rule .main (mem_main_iff.mp hm).1⟩
  have ha : ip ∉ (resolveWithSupport b cache order support).additional := fun ha =>
    h ⟨_, side_rule .additional (mem_additional.mp ha)⟩
  rw [owner_resolved, AddressOwnership.addressOwner, if_neg hm, if_neg ha, resolved_networks]

end

section
variable {b : CanonicalRuleBook} {cache : FqdnCacheSnapshot} {order : ZoneVsIpOrder}
variable {support : RuleShapeSupport} {ip : IpAddr} {link : Link}

theorem entry_ranked {entries : List (IpAddr × ClaimRank)} {rank : ClaimRank}
    (h : (ip, rank) ∈ entries) : ip ∈ (raiseAll entries).map Prod.fst := by
  obtain ⟨a, ha, -⟩ := strongest_ge (raise_all_strongest entries ip) h
  rw [mem_keys, ha]
  rfl

theorem host_carried {role : RouteRole} {r : CanonicalRule} {host : Text}
    (hr : r ∈ routeRules (b.setFor role)) (hhost : host ∈ hostsNamed cache r) :
    ∃ e, carriedBy b cache support host = some e ∧ nameClaimOf (b.setFor role) r ≤ e.2 := by
  let claimed (role : RouteRole) (c : NameClaim) := ∃ r ∈ routeRules (b.setFor role),
    host ∈ hostsNamed cache r ∧ nameClaimOf (b.setFor role) r = c
  have hclaim : claimed role (nameClaimOf (b.setFor role) r) := ⟨r, hr, hhost, rfl⟩
  have hm : Strongest {c | claimed .primary c} _ := names_strongest cache b.primary support host
  have ha : Strongest {c | claimed .secondary c} _ := names_strongest cache b.secondary support host
  cases he : carriedBy b cache support host with
  | none => exact absurd hclaim (carrier_none hm ha he role _)
  | some e =>
    exact ⟨e, rfl, ((carrier_leads hm ha he).2 role _ hclaim).elim le_of_lt fun heq => heq.1.le⟩

theorem named_ranked (h : Named b cache ip) :
    ip ∈ (resolveWithSupport b cache order support).routeRank.map Prod.fst := by
  obtain ⟨role, r, hr, hnames⟩ := h
  rcases hnames with hlit | ⟨host, hhost, hip⟩
  · exact entry_ranked ((mem_route_entries support).mpr
      (Or.inl ⟨⟨role, mem_literals.mpr ⟨r, hr, hlit⟩⟩, rfl⟩))
  · obtain ⟨e, he, -⟩ := @host_carried b cache support role r host hr hhost
    exact entry_ranked ((mem_route_entries support).mpr (Or.inr ⟨host, e, ⟨he, hip⟩, rfl⟩))

theorem owner_names_or_wins
    (h : (resolveWithSupport b cache order support).ownerOf ip = some link) :
    (∃ r ∈ routeRules (b.setFor (roleOf link)), NamesAddress cache ip r) ∨
      (networksOfBook b support).winner ip = some link := by
  rw [owner_resolved, AddressOwnership.addressOwner, resolved_networks] at h
  split at h
  · rename_i hm
    split at h
    · rename_i hz
      cases h
      exact Or.inr hz.2
    · cases h
      exact Or.inl (side_rule .main (mem_main_iff.mp hm).1)
  · split at h
    · rename_i ha
      split at h
      · rename_i hz
        cases h
        exact Or.inr hz.2
      · cases h
        exact Or.inl (side_rule .additional (mem_additional.mp ha))
    · exact Or.inr h

end

end NetRuleRouter.NamedAddresses
