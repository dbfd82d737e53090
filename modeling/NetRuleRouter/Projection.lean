import NetRuleRouter.RuleMatching

/-!
# The rule book as enforcement reads it

Three rewrites of a stored book, applied before enforcement and never stored:
check rules become routes and take their verdicts, a bare name gains its
subdomains, and a rule for a site in any zone gains a suffix rule for each
zone the site was seen in. Each rewrite adds or moves rules of a set and
sorts it again.
-/

set_option autoImplicit false

namespace NetRuleRouter.Projection
open TextOps IpText Sorting HostMatching Canonical

def otherRole : RouteRole → RouteRole
  | .primary => .secondary
  | .secondary => .primary

def isSuffixWith (d : Text) (app : Option CanonicalAppMatch) (r : CanonicalRule) : Bool :=
  r.addressMatch == some (.suffixDomain d) && r.appMatch == app

/-- The name whose subdomains the rule gains. A suffix rule of either set with the same
application match keeps a bare name as it is. -/
def coveredName (own other : CanonicalRuleSet) (r : CanonicalRule) : Option Text :=
  match r.addressMatch with
  | some (.exactFqdn d) =>
    if (own.rules ++ other.rules).any (isSuffixWith d r.appMatch) then none else some d
  | some (.zone d) =>
    if zoneRanksAsSuffix d && !own.holdsSuffix d r.appMatch then some d else none
  | _ => none

theorem covered_name_iff {own other : CanonicalRuleSet} {r : CanonicalRule} {d : Text} :
    coveredName own other r = some d ↔
      (r.addressMatch = some (.exactFqdn d) ∧
        ∀ s ∈ own.rules ++ other.rules, isSuffixWith d r.appMatch s = false) ∨
      (r.addressMatch = some (.zone d) ∧ zoneRanksAsSuffix d = true ∧
        own.holdsSuffix d r.appMatch = false) := by
  unfold coveredName
  split
  next e haddr =>
    rw [haddr]
    by_cases hany : (own.rules ++ other.rules).any (isSuffixWith e r.appMatch) = true
    · rw [if_pos hany]
      obtain ⟨s, hs, hsuf⟩ := List.any_eq_true.mp hany
      constructor
      · simp
      · intro h
        obtain ⟨he, hfree⟩ | ⟨he, -⟩ := h
        · cases he
          simp [hfree s hs] at hsuf
        · simp at he
    · rw [if_neg hany]
      simp only [List.any_eq_true, not_exists, not_and, Bool.not_eq_true] at hany
      simp only [Option.some.injEq, CanonicalAddressMatch.exactFqdn.injEq, reduceCtorEq, false_and,
        or_false]
      constructor
      · intro h
        cases h
        exact ⟨rfl, hany⟩
      · exact fun h => h.1
  next e haddr =>
    rw [haddr]
    simp only [Option.ite_none_right_eq_some, Bool.and_eq_true, Bool.not_eq_true',
      Option.some.injEq, reduceCtorEq, false_and, false_or, CanonicalAddressMatch.zone.injEq]
    constructor
    · intro h
      obtain ⟨h, rfl⟩ := h
      exact ⟨rfl, h⟩
    · intro h
      obtain ⟨rfl, h⟩ := h
      exact ⟨h, rfl⟩
  next hx hy =>
    constructor
    · simp
    · intro h
      obtain ⟨he, -⟩ | ⟨he, -⟩ := h
      · exact (hx d he).elim
      · exact (hy d he).elim

def subdomainTwin (r : CanonicalRule) (d : Text) : CanonicalRule :=
  { r with id := r.id ++ "+sub".toList, addressMatch := some (.suffixDomain d), origin := none }

def coverSet (own other : CanonicalRuleSet) : CanonicalRuleSet :=
  .fromRules (own.rules ++
    own.rules.filterMap fun r => (coveredName own other r).map (subdomainTwin r))

def withSubdomainCoverage (b : CanonicalRuleBook) : CanonicalRuleBook :=
  ⟨coverSet b.primary b.secondary, coverSet b.secondary b.primary⟩

def isAnyZone (r : CanonicalRule) : Bool :=
  match r.addressMatch with
  | some (.anyZoneDomain _) => true
  | _ => false

def hasAnyZoneRules (b : CanonicalRuleBook) : Bool := b.allRules.any isAnyZone

def siteTwin (r : CanonicalRule) (name : Text) : CanonicalRule :=
  { r with
    id := r.id ++ '+' :: name
    addressMatch := some (.suffixDomain name)
    origin := none }

def siteTwins (b : CanonicalRuleBook) (sites : Text → List Text) (r : CanonicalRule) :
    List CanonicalRule :=
  match r.addressMatch with
  | some (.anyZoneDomain base) =>
    ((sortBy compare (sites base)).dedup.filter (!b.namesSuffixOutright ·)).map (siteTwin r)
  | _ => []

def expandSites (b : CanonicalRuleBook) (sites : Text → List Text) (s : CanonicalRuleSet) :
    CanonicalRuleSet :=
  .fromRules (s.rules ++ (s.rules.filter CanonicalRule.enabled).flatMap (siteTwins b sites))

def withAnyZoneSites (b : CanonicalRuleBook) (sites : Text → List Text) : CanonicalRuleBook :=
  if !hasAnyZoneRules b then b
  else ⟨expandSites b sites b.primary, expandSites b sites b.secondary⟩

structure VerifyKey where
  written : RouteRole
  address : CanonicalAddressMatch
  deriving DecidableEq

def VerifyKey.names (k : VerifyKey) (written : RouteRole) (r : CanonicalRule) : Bool :=
  k.written == written && r.addressMatch == some k.address

structure VerifyMove where
  key : VerifyKey
  host : Text
  deriving DecidableEq

def isVerify (r : CanonicalRule) : Bool := r.action == .verify

def oneDestination (r : CanonicalRule) : Bool :=
  match r.addressMatch with
  | some (.exactFqdn _) | some (.exactIp _) => true
  | _ => false

section
variable (moved : List VerifyMove)

def movesOf (written : RouteRole) (r : CanonicalRule) : List VerifyMove :=
  if !isVerify r then [] else moved.filter fun m => m.key.names written r

def isMoved (written : RouteRole) (r : CanonicalRule) : Bool :=
  oneDestination r && !(movesOf moved written r).isEmpty

def provenHost (host : Text) : Text :=
  toAsciiLowercase ((trim host).rdropWhile (· == '.'))

def provenAddress (host : Text) : CanonicalAddressMatch :=
  match parseIpAddr host with
  | some addr => .exactIp addr
  | none => .exactFqdn host

def provenRule (r : CanonicalRule) (host : Text) : CanonicalRule where
  id := r.id ++ '~' :: host
  enabled := true
  addressMatch := some (provenAddress host)
  appMatch := none
  comment := []
  action := .route
  origin := none

def provenHosts (written : RouteRole) (r : CanonicalRule) : List CanonicalRule :=
  if oneDestination r then []
  else (movesOf moved written r).map fun m => provenRule r (provenHost m.host)

theorem mem_proven_hosts {written : RouteRole} {r p : CanonicalRule} :
    p ∈ provenHosts moved written r ↔ oneDestination r = false ∧
      ∃ m ∈ movesOf moved written r, provenRule r (provenHost m.host) = p := by
  unfold provenHosts
  by_cases h : oneDestination r = true
  · simp [h]
  · simp [Bool.eq_false_iff.mpr h]

theorem proven_address_exact (host : Text) :
    (∃ addr, provenAddress host = .exactIp addr) ∨ provenAddress host = .exactFqdn host := by
  unfold provenAddress
  split
  next addr _ => exact Or.inl ⟨addr, rfl⟩
  · exact Or.inr rfl

def asRoute (r : CanonicalRule) : CanonicalRule :=
  if isVerify r then { r with action := .route } else r

def settle (b : CanonicalRuleBook) (own : RouteRole) : CanonicalRuleSet :=
  let other := otherRole own
  .fromRules
    ((((b.setFor own).rules.filter fun r => !isMoved moved own r) ++
      ((b.setFor other).rules.filter fun r => isMoved moved other r)).map asRoute ++
     (b.setFor other).rules.flatMap (provenHosts moved other))

def withVerifyEffective (b : CanonicalRuleBook) : CanonicalRuleBook :=
  if !b.allRules.any isVerify then b
  else ⟨settle moved b .primary, settle moved b .secondary⟩

end

section
variable {b : CanonicalRuleBook} {role : RouteRole} {r : CanonicalRule}

theorem mem_subdomain_coverage :
    r ∈ ((withSubdomainCoverage b).setFor role).rules ↔ r ∈ (b.setFor role).rules ∨
      ∃ q ∈ (b.setFor role).rules, ∃ d,
        coveredName (b.setFor role) (b.setFor (otherRole role)) q = some d ∧
          subdomainTwin q d = r := by
  cases role <;>
    simp [withSubdomainCoverage, CanonicalRuleBook.setFor, coverSet, otherRole]

theorem any_zone_sites_set (sites : Text → List Text) :
    (withAnyZoneSites b sites).setFor role = expandSites b sites (b.setFor role) := by
  by_cases hz : hasAnyZoneRules b = true
  · rw [withAnyZoneSites, hz]
    cases role <;> rfl
  · have hnone : ((b.setFor role).rules.filter CanonicalRule.enabled).flatMap
        (siteTwins b sites) = [] := by
      refine List.flatMap_eq_nil_iff.mpr fun q hq => ?_
      unfold siteTwins
      split
      · rename_i base haddr
        exact (hz (List.any_eq_true.mpr ⟨q, mem_all_rules.mpr ⟨role, (List.mem_filter.mp hq).1⟩,
          by rw [isAnyZone, haddr]⟩)).elim
      · rfl
    rw [withAnyZoneSites, if_pos (by simpa using hz), expandSites, hnone, List.append_nil,
      from_own_rules]

theorem mem_any_zone_sites {sites : Text → List Text} :
    r ∈ ((withAnyZoneSites b sites).setFor role).rules ↔ r ∈ (b.setFor role).rules ∨
      ∃ q ∈ (b.setFor role).rules, q.enabled = true ∧ ∃ base,
        q.addressMatch = some (.anyZoneDomain base) ∧ ∃ name ∈ sites base,
          b.namesSuffixOutright name = false ∧ siteTwin q name = r := by
  simp only [any_zone_sites_set, expandSites, mem_from_rules, List.mem_append, List.mem_flatMap,
    List.mem_filter]
  refine or_congr Iff.rfl (exists_congr fun q => ?_)
  rw [and_assoc]
  refine and_congr_right fun _ => and_congr_right fun _ => ?_
  rw [siteTwins]
  rcases q.addressMatch with _ | (_ | _ | base | _ | _ | _ | _) <;> simp [and_assoc]

/-- Where no rule is a check rule, settling changes nothing. -/
theorem verify_effective_set (moved : List VerifyMove) :
    (withVerifyEffective moved b).setFor role = settle moved b role := by
  by_cases hv : b.allRules.any isVerify = true
  · rw [withVerifyEffective, hv]
    cases role <;> rfl
  · have hplain {written : RouteRole} {q : CanonicalRule} (hq : q ∈ (b.setFor written).rules) :
        isVerify q = false := by
      apply Bool.eq_false_iff.mpr
      intro h
      exact hv (List.any_eq_true.mpr ⟨q, mem_all_rules.mpr ⟨written, hq⟩, h⟩)
    have hmoves {written : RouteRole} {q : CanonicalRule} (hq : q ∈ (b.setFor written).rules) :
        movesOf moved written q = [] := by
      simp [movesOf, hplain hq]
    have hstay : (b.setFor role).rules.filter (fun r => !isMoved moved role r) =
        (b.setFor role).rules :=
      List.filter_eq_self.mpr fun q hq => by simp [isMoved, hmoves hq]
    have hgo : (b.setFor (otherRole role)).rules.filter (isMoved moved (otherRole role)) = [] :=
      List.filter_eq_nil_iff.mpr fun q hq => by simp [isMoved, hmoves hq]
    have hroute : (b.setFor role).rules.map asRoute = (b.setFor role).rules :=
      (List.map_congr_left fun q hq => by simp [asRoute, hplain hq]).trans (List.map_id _)
    have hnone : (b.setFor (otherRole role)).rules.flatMap (provenHosts moved (otherRole role)) =
        [] :=
      List.flatMap_eq_nil_iff.mpr fun q hq => by simp [provenHosts, hmoves hq]
    rw [withVerifyEffective, if_pos (by simpa using hv), settle, hstay, hgo, List.append_nil,
      hroute, hnone, List.append_nil, from_own_rules]

theorem mem_verify_effective {moved : List VerifyMove} :
    r ∈ ((withVerifyEffective moved b).setFor role).rules ↔
      (∃ q ∈ (b.setFor role).rules, isMoved moved role q = false ∧ asRoute q = r) ∨
      ∃ q ∈ (b.setFor (otherRole role)).rules,
        (isMoved moved (otherRole role) q = true ∧ asRoute q = r) ∨
          r ∈ provenHosts moved (otherRole role) q := by
  simp only [verify_effective_set, settle, mem_from_rules, List.mem_append, List.mem_map,
    List.mem_filter, List.mem_flatMap, or_and_right, exists_or, and_or_left, and_assoc, or_assoc,
    Bool.not_eq_true']

theorem effective_not_verify {moved : List VerifyMove}
    (h : r ∈ ((withVerifyEffective moved b).setFor role).rules) : r.action ≠ .verify := by
  simp only [verify_effective_set, settle, mem_from_rules, List.mem_append, List.mem_map,
    List.mem_flatMap, mem_proven_hosts] at h
  rcases h with ⟨q, -, rfl⟩ | ⟨q, -, -, m, -, rfl⟩
  · unfold asRoute
    split
    · simp
    · rename_i hv
      simpa [isVerify] using hv
  · simp [provenRule]

end

end NetRuleRouter.Projection
